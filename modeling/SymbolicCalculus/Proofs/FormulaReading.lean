import SymbolicCalculus.Binary64.Text
import SymbolicCalculus.Derivation
import SymbolicCalculus.Proofs.Grammar

/-!
# Formulas are read as the grammar says

`Formula.parse_of_reads`: a formula that the grammar derives an expression from is read as that
expression, after it was written out with all its parentheses and cut into words again.
-/

namespace SymbolicCalculus

theorem Lambda.ofBody_body {α : Type} (body : Expr α) : (Lambda.ofBody body).body = body := by
  unfold ofBody
  split <;> rfl

namespace Formula

variable {α : Type} [Numeral α]

/-- The term that a formula is written out as. -/
theorem Reads.bracketed {cs : List Char} {e : Expr α} (h : Reads .sum (tokens cs) e) :
    ∃ t, Term.Denotes t e ∧ Formula.bracketed cs = t.chars := by
  obtain ⟨t, ht, hterm⟩ := h.ofTokens? (Token.isLexical_withProducts (Token.isLexical_ofChars cs))
  exact ⟨t, ht, by rw [Formula.bracketed, hterm]⟩

/-- A formula with its parentheses written out is parsed as the grammar says. -/
theorem Reads.parse_parenthesize {text : String} {e : Expr α}
    (h : Reads .sum (tokens text.toList) e) {maxDepth : Nat} (hheight : e.height ≤ maxDepth) :
    parse maxDepth (parenthesize text) = .ok e := by
  obtain ⟨t, ht, hchars⟩ := h.bracketed
  rw [parse, parenthesize, String.toList_ofList, hchars, parseChars_chars ht hheight]

/-- A formula in the form that functions are read from is parsed as the grammar says. -/
theorem Reads.parse_normalize {text : String} {e : Expr α}
    (h : Reads .sum (tokens text.toList) e) {maxDepth : Nat} (hheight : 1 + e.height ≤ maxDepth) :
    parse maxDepth (normalize text) = .ok (.sum (.const (Numeral.ofDecimal 0 0)) e) := by
  obtain ⟨t, ht, hchars⟩ := h.bracketed
  rw [parse, normalize, String.toList_ofList, hchars, parseChars_wrapped ht hheight]

/-- A number by itself is parsed as its value. -/
theorem parse_number {digits : List Char} {v : α} (hdigits : Literal.IsLiteral digits)
    (hv : Literal.value? digits = some v) {maxDepth : Nat} (hdepth : 1 ≤ maxDepth) :
    parse maxDepth (normalize (String.ofList digits)) =
      .ok (.sum (.const (Numeral.ofDecimal 0 0)) (.const v)) := by
  have htokens : tokens digits = [.number digits] := by
    have hfirst := Token.ofChars_number hdigits Literal.EndsNumber.nil
    rw [List.append_nil, Token.ofChars_nil] at hfirst
    rw [tokens, hfirst]
    rfl
  have hreads : Reads .sum (tokens (String.ofList digits).toList) (.const v) := by
    rw [String.toList_ofList, htokens]
    exact Reads.sum_of_primary (.number (by rwa [Literal.value?_filter]))
  exact hreads.parse_normalize hdepth

/-- **A formula is read as the grammar says.** -/
theorem parse_of_reads {text : String} {e : Expr α} (h : Reads .sum (tokens text.toList) e)
    {maxDepth : Nat} (hheight : 1 + e.height ≤ maxDepth) :
    (∃ f : Lambda α, parseFunction maxDepth (normalize text) = .ok f ∧
      f.body = .sum (.const (Numeral.ofDecimal 0 0)) e) ∧
    parse maxDepth (parenthesize text) = .ok e := by
  obtain ⟨t, ht, hchars⟩ := h.bracketed
  refine ⟨⟨.ofBody (.sum (.const (Numeral.ofDecimal 0 0)) e), ?_, Lambda.ofBody_body _⟩,
    h.parse_parenthesize (by omega)⟩
  rw [parseFunction, parse, normalize, String.toList_ofList, hchars, parseChars_wrapped ht hheight]
  rfl

/-- The minus sign before a product with an unsaid sign, and a number with a comma beside the comma
between two arguments. -/
theorem parse_of_reads_of_text :
    let e : Expr Binary64 := .difference
      (.product (.neg (.const (Numeral.ofDecimal 2 0))) (.power (.param "x") (.param "n")))
      (.call₂ .log (.const (Numeral.ofDecimal 1234 0)) (.param "b"))
    let text := "-2x^n - log(1,234, b)"
    Reads .sum (tokens text.toList) e ∧ 1 + e.height ≤ 512 ∧
      (∃ f : Lambda Binary64, parseFunction 512 (normalize text) = .ok f ∧
        f.body = .sum (.const (Numeral.ofDecimal 0 0)) e) ∧
      parse 512 (parenthesize text) = .ok e := by
  intro e text
  have htokens : tokens text.toList =
      [.operator .minus, .number ['2'], .operator .times, .letter 'x', .operator .power,
        .letter 'n', .operator .minus, .function .log, .openParen,
        .number ['1', ',', '2', '3', '4'], .comma, .letter 'b', .closeParen] := by
    rw [tokens_eq]
    decide
  have htwo : Reads .signed [.operator .minus, .number ['2']]
      (.neg (.const (Numeral.ofDecimal 2 0)) : Expr Binary64) :=
    .minus (.signed_of_power (.power_of_primary (.number rfl)))
  have hpower : Reads .signed ([.letter 'x'] ++ .operator .power :: [.letter 'n'])
      (.power (.param "x") (.param "n") : Expr Binary64) :=
    .signed_of_power (.power .letter (.signed_of_power (.power_of_primary .letter)))
  have hargument : Reads .sum [.number ['1', ',', '2', '3', '4']]
      (.const (Numeral.ofDecimal 1234 0) : Expr Binary64) :=
    .sum_of_product (.product_of_signed (.signed_of_power (.power_of_primary (.number rfl))))
  have hbase : Reads .sum [.letter 'b'] (.param "b" : Expr Binary64) :=
    .sum_of_product (.product_of_signed (.signed_of_power (.power_of_primary .letter)))
  have hlog : Reads .product (.function .log :: .openParen :: [.number ['1', ',', '2', '3', '4']] ++
      .comma :: [.letter 'b'] ++ [.closeParen])
      (.call₂ .log (.const (Numeral.ofDecimal 1234 0)) (.param "b") : Expr Binary64) :=
    .product_of_signed (.signed_of_power (.power_of_primary (.call₂ rfl hargument hbase)))
  have hreads : Reads .sum (tokens text.toList) e := by
    rw [htokens]
    exact .sum rfl (.sum_of_product (.product rfl (.product_of_signed htwo) hpower)) hlog
  have hheight : 1 + e.height ≤ 512 := by decide
  exact ⟨hreads, hheight, parse_of_reads hreads hheight⟩

end Formula

end SymbolicCalculus
