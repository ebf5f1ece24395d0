import SymbolicCalculus.Proofs.Climbing
import SymbolicCalculus.Proofs.Lexing
import SymbolicCalculus.Proofs.TermReading

/-!
# The grammar of formulas

What a formula means, said without a parser: `Formula.Reads` derives an expression from a list of
tokens. Everything that can be derived is found by precedence climbing, which makes a term of the
tokens that denotes the expression: `Formula.Reads.ofTokens?`.
-/

namespace SymbolicCalculus

open Literal (IsLiteral)

variable {α : Type} [Numeral α]

namespace Formula

/-- The kinds of phrases that a formula is made of. -/
inductive Phrase where
  /-- Products with plus and minus signs between them. -/
  | sum
  /-- Signed operands with the signs of multiplication and division between them. -/
  | product
  /-- An operand with its exponents and with any signs before it. -/
  | signed
  /-- An operand with its exponents. -/
  | power
  /-- A number, a letter, a call, or a formula between parentheses. -/
  | primary

/-- The tokens are a phrase of some kind that stands for an expression.

    sum     := product | sum ("+" | "-") product
    product := signed | product ("*" | "/") signed
    signed  := power | "-" signed | "+" signed
    power   := primary | primary "^" signed
    primary := NUMBER | LETTER | "(" sum ")" | FUNCTION "(" sum ("," sum)? ")"

Sums and products are read from the left and powers from the right. A minus sign negates an operand
with its exponents, and a plus sign is dropped. The commas in a number do not count, and a function
is called with as many arguments as it accepts. -/
inductive Reads : Phrase → List Token → Expr α → Prop
  | number {digits : List Char} {v : α} :
    Literal.value? (digits.filter (· != ',')) = some v →
    Reads .primary [.number digits] (.const v)
  | letter {c : Char} : Reads .primary [.letter c] (.param (String.singleton c))
  | group {ts : List Token} {e : Expr α} :
    Reads .sum ts e → Reads .primary (.openParen :: ts ++ [.closeParen]) e
  | call₁ {f : Builtin} {ts : List Token} {x : Expr α} :
    f.accepts 1 = true → Reads .sum ts x →
    Reads .primary (.function f :: .openParen :: ts ++ [.closeParen]) (.call₁ f x)
  | call₂ {f : Builtin} {ts us : List Token} {x y : Expr α} :
    f.accepts 2 = true → Reads .sum ts x → Reads .sum us y →
    Reads .primary (.function f :: .openParen :: ts ++ .comma :: us ++ [.closeParen])
      (.call₂ f x y)
  | power_of_primary {ts : List Token} {e : Expr α} : Reads .primary ts e → Reads .power ts e
  | power {ts us : List Token} {a n : Expr α} :
    Reads .primary ts a → Reads .signed us n →
    Reads .power (ts ++ .operator .power :: us) (.power a n)
  | signed_of_power {ts : List Token} {e : Expr α} : Reads .power ts e → Reads .signed ts e
  | minus {ts : List Token} {e : Expr α} :
    Reads .signed ts e → Reads .signed (.operator .minus :: ts) (.neg e)
  | plus {ts : List Token} {e : Expr α} :
    Reads .signed ts e → Reads .signed (.operator .plus :: ts) e
  | product_of_signed {ts : List Token} {e : Expr α} : Reads .signed ts e → Reads .product ts e
  | product {op : Operator} {ts us : List Token} {a b : Expr α} :
    op.precedence = .multiplicative → Reads .product ts a → Reads .signed us b →
    Reads .product (ts ++ .operator op :: us) (.binary op a b)
  | sum_of_product {ts : List Token} {e : Expr α} : Reads .product ts e → Reads .sum ts e
  | sum {op : Operator} {ts us : List Token} {a b : Expr α} :
    op.precedence = .additive → Reads .sum ts a → Reads .product us b →
    Reads .sum (ts ++ .operator op :: us) (.binary op a b)

/-! ## Primary phrases as operands -/

section primary

variable {ts us : List Token} {a b : Expr α}

theorem Reads.signed_of_primary (h : Reads .primary ts a) : Reads .signed ts a :=
  .signed_of_power (.power_of_primary h)

theorem Reads.product_of_primary (h : Reads .primary ts a) : Reads .product ts a :=
  .product_of_signed h.signed_of_primary

theorem Reads.sum_of_primary (h : Reads .primary ts a) : Reads .sum ts a :=
  .sum_of_product h.product_of_primary

/-- Every operator joins two primary phrases. -/
theorem Reads.binary (ha : Reads .primary ts a) (op : Operator) (hb : Reads .primary us b) :
    Reads .sum (ts ++ .operator op :: us) (.binary op a b) := by
  cases op with
  | plus | minus => exact .sum rfl ha.sum_of_primary hb.product_of_primary
  | times | divide =>
    exact .sum_of_product (.product rfl ha.product_of_primary hb.signed_of_primary)
  | power =>
    exact .sum_of_product
      (.product_of_signed (.signed_of_power (.power ha hb.signed_of_primary)))

end primary

end Formula

namespace Formula

open Term (Denotes Stops readExpression readClimb readOperand readExpression_eq)

/-! ## Climbing finds what the grammar derives -/

/-- The weakest operator that joins two operands in a phrase. -/
def Phrase.weakest : Phrase → Precedence
  | sum => .additive
  | product => .multiplicative
  | signed | power | primary => .exponent

/-- The operators that would go on with a phrase are as strong as this. -/
def Phrase.next : Phrase → Precedence
  | sum => .multiplicative
  | _ => .exponent

/-- Climbing reads the tokens as the term `t` and goes on with what is left to join to it, unless
that is an operator which belongs to the phrase. -/
def IsClimbed (phrase : Phrase) (ts : List Token) (t : Term) : Prop :=
  ∀ min rest, min.rank ≤ phrase.weakest.rank → Stops phrase.next rest →
    readExpression min (ts ++ rest) = readClimb min t rest

/-- Climbing reads the tokens as one operand. -/
def IsOneOperand (ts : List Token) (t : Term) : Prop :=
  ∀ rest, readOperand (ts ++ rest) = some (t, rest)

section climbing

variable {ts us : List Token} {t u : Term} {op : Operator}

/-- How climbing reads a phrase that becomes the term `t`. -/
def IsRead : Phrase → List Token → Term → Prop
  | .primary, ts, t => IsOneOperand ts t
  | phrase, ts, t => IsClimbed phrase ts t

theorem IsOneOperand.climbed (h : IsOneOperand ts t) (phrase : Phrase) :
    IsClimbed phrase ts t := by
  intro min rest _ _
  rw [readExpression_eq, h rest]
  rfl

/-- A phrase that nothing is joined to is read to its end. -/
theorem IsClimbed.expression {phrase : Phrase} (h : IsClimbed phrase ts t) {rest : List Token}
    (hrest : Stops phrase.weakest rest) (hnext : Stops phrase.next rest) :
    readExpression phrase.weakest (ts ++ rest) = some (t, rest) := by
  rw [h _ rest (Nat.le_refl _) hnext, Term.readClimb_of_stops hrest]

/-- Tokens that are one phrase from the first to the last make up its term. -/
theorem IsClimbed.ofTokens? (h : IsClimbed .sum ts t) : Term.ofTokens? ts = some t := by
  have hend := h.expression (Term.stops_nil _) (Term.stops_nil _)
  rw [List.append_nil] at hend
  exact Term.ofTokens?_eq_some hend

theorem isOneOperand_number (digits : List Char) :
    IsOneOperand [.number digits] (.number digits) :=
  fun rest => Term.readOperand_number digits rest

theorem isOneOperand_letter (c : Char) : IsOneOperand [.letter c] (.letter c) :=
  fun rest => Term.readOperand_letter c rest

theorem isOneOperand_group (h : IsClimbed .sum ts t) :
    IsOneOperand (.openParen :: ts ++ [.closeParen]) t := by
  intro rest
  have heq : .openParen :: ts ++ [.closeParen] ++ rest =
      .openParen :: (ts ++ .closeParen :: rest) := by simp
  rw [heq, Term.readOperand_group
    (h.expression (Term.stops_closeParen _ _) (Term.stops_closeParen _ _))]

theorem isOneOperand_call₁ (f : Builtin) (h : IsClimbed .sum ts t) :
    IsOneOperand (.function f :: .openParen :: ts ++ [.closeParen]) (.call f [t]) := by
  intro rest
  have heq : .function f :: .openParen :: ts ++ [.closeParen] ++ rest =
      .function f :: .openParen :: (ts ++ .closeParen :: rest) := by simp
  rw [heq, Term.readOperand_call, Term.readArguments_last
    (h.expression (Term.stops_closeParen _ _) (Term.stops_closeParen _ _))]
  rfl

theorem isOneOperand_call₂ (f : Builtin) (ht : IsClimbed .sum ts t) (hu : IsClimbed .sum us u) :
    IsOneOperand (.function f :: .openParen :: ts ++ .comma :: us ++ [.closeParen])
      (.call f [t, u]) := by
  intro rest
  have heq : .function f :: .openParen :: ts ++ .comma :: us ++ [.closeParen] ++ rest =
      .function f :: .openParen :: (ts ++ .comma :: (us ++ .closeParen :: rest)) := by simp
  rw [heq, Term.readOperand_call,
    Term.readArguments_comma (ht.expression (Term.stops_comma _ _) (Term.stops_comma _ _)),
    Term.readArguments_last
      (hu.expression (Term.stops_closeParen _ _) (Term.stops_closeParen _ _))]
  rfl

theorem isClimbed_power (ht : IsOneOperand ts t) (hu : IsClimbed .signed us u) :
    IsClimbed .power (ts ++ .operator .power :: us) (.binary .power t u) := by
  intro min rest hmin hrest
  have hright : readExpression .exponent (us ++ rest) = some (u, rest) := hu.expression hrest hrest
  rw [List.append_assoc, List.cons_append, readExpression_eq, ht]
  show readClimb min t _ = _
  rw [Term.readClimb_operator hmin]
  show (readExpression .exponent _).bind _ = _
  rw [hright]
  rfl

theorem isClimbed_minus (h : IsClimbed .signed ts t) :
    IsClimbed .signed (.operator .minus :: ts) (.neg t) := by
  intro min rest _ hrest
  have hright : readExpression .exponent (ts ++ rest) = some (t, rest) := h.expression hrest hrest
  rw [List.cons_append, readExpression_eq, Term.readOperand_minus, hright]
  rfl

theorem isClimbed_plus (h : IsClimbed .signed ts t) :
    IsClimbed .signed (.operator .plus :: ts) t := by
  intro min rest _ hrest
  have hright : readExpression .exponent (ts ++ rest) = some (t, rest) := h.expression hrest hrest
  rw [List.cons_append, readExpression_eq, Term.readOperand_plus, hright]
  rfl

/-- An operator that is read from the left. -/
theorem isClimbed_left {phrase : Phrase} (part : Phrase) (hop : op.precedence = phrase.weakest)
    (hpart : op.rightPrecedence = part.weakest) (hnext : phrase.next = part.weakest)
    (hstop : op.precedence.rank < phrase.next.rank) (hle : part.weakest.rank ≤ part.next.rank)
    (ht : IsClimbed phrase ts t) (hu : IsClimbed part us u) :
    IsClimbed phrase (ts ++ .operator op :: us) (.binary op t u) := by
  intro min rest hmin hrest
  rw [hnext] at hrest
  have hright : readExpression op.rightPrecedence (us ++ rest) = some (u, rest) := by
    rw [hpart]
    exact hu.expression hrest (hrest.mono hle)
  rw [List.append_assoc, List.cons_append, ht min _ hmin (Term.stops_operator hstop _),
    Term.readClimb_operator (by rwa [hop]), hright]
  rfl

theorem isClimbed_product_of_signed (h : IsClimbed .signed ts t) : IsClimbed .product ts t :=
  fun min rest hmin hrest => h min rest (Nat.le_trans hmin (by decide)) hrest

theorem isClimbed_sum_of_product (h : IsClimbed .product ts t) : IsClimbed .sum ts t :=
  fun min rest hmin hrest => h min rest (Nat.le_trans hmin (by decide)) (hrest.mono (by decide))

/-- Every operator joins two operands. -/
theorem isClimbed_operator (op : Operator) (ht : IsOneOperand ts t) (hu : IsOneOperand us u) :
    IsClimbed .sum (ts ++ .operator op :: us) (.binary op t u) := by
  cases op with
  | plus | minus =>
    exact isClimbed_left .product rfl rfl rfl (by decide) (by decide) (ht.climbed .sum)
      (hu.climbed .product)
  | times | divide =>
    exact isClimbed_sum_of_product (isClimbed_left .signed rfl rfl rfl (by decide) (by decide)
      (ht.climbed .product) (hu.climbed .signed))
  | power =>
    have hpower : IsClimbed .signed _ _ := isClimbed_power ht (hu.climbed .signed)
    exact isClimbed_sum_of_product (isClimbed_product_of_signed hpower)

end climbing

/-- What is derived is found by climbing, as a term that denotes the same expression. -/
theorem Reads.isRead {phrase : Phrase} {ts : List Token} {e : Expr α} (h : Reads phrase ts e)
    (hts : ∀ token ∈ ts, token.IsLexical) : ∃ t, Denotes t e ∧ IsRead phrase ts t := by
  induction h with
  | @number digits v hv =>
    rw [Literal.value?_filter] at hv
    have hdigits : IsLiteral digits := hts (.number digits) (List.mem_singleton_self _)
    exact ⟨.number digits, .number hdigits hv, isOneOperand_number digits⟩
  | @letter c =>
    have hc : c.isAlpha = true := hts (.letter c) (List.mem_singleton_self _)
    exact ⟨.letter c, .letter hc, isOneOperand_letter c⟩
  | group _ ih =>
    obtain ⟨t, ht, hread⟩ := ih (by grind)
    exact ⟨t, ht, isOneOperand_group hread⟩
  | @call₁ f ts x hf _ ih =>
    obtain ⟨t, ht, hread⟩ := ih (by grind)
    exact ⟨.call f [t], .call₁ hf ht, isOneOperand_call₁ f hread⟩
  | @call₂ f ts us x y hf _ _ iht ihu =>
    obtain ⟨t, ht, hreadt⟩ := iht (by grind)
    obtain ⟨u, hu, hreadu⟩ := ihu (by grind)
    exact ⟨.call f [t, u], .call₂ hf ht hu, isOneOperand_call₂ f hreadt hreadu⟩
  | power_of_primary _ ih =>
    obtain ⟨t, ht, hread⟩ := ih hts
    exact ⟨t, ht, hread.climbed .power⟩
  | power _ _ iht ihu =>
    obtain ⟨t, ht, hreadt⟩ := iht (by grind)
    obtain ⟨u, hu, hreadu⟩ := ihu (by grind)
    exact ⟨.binary .power t u, .binary ht hu, isClimbed_power hreadt hreadu⟩
  | signed_of_power _ ih => exact ih hts
  | minus _ ih =>
    obtain ⟨t, ht, hread⟩ := ih (by grind)
    exact ⟨.neg t, .neg ht, isClimbed_minus hread⟩
  | plus _ ih =>
    obtain ⟨t, ht, hread⟩ := ih (by grind)
    exact ⟨t, ht, isClimbed_plus hread⟩
  | product_of_signed _ ih =>
    obtain ⟨t, ht, hread⟩ := ih hts
    exact ⟨t, ht, isClimbed_product_of_signed hread⟩
  | @product op _ _ _ _ hop _ _ iht ihu =>
    obtain ⟨t, ht, hreadt⟩ := iht (by grind)
    obtain ⟨u, hu, hreadu⟩ := ihu (by grind)
    have hright : op.rightPrecedence = .exponent := by cases op <;> first | rfl | contradiction
    exact ⟨.binary op t u, .binary ht hu, isClimbed_left .signed hop hright rfl
      (by rw [hop]; decide) (by decide) hreadt hreadu⟩
  | sum_of_product _ ih =>
    obtain ⟨t, ht, hread⟩ := ih hts
    exact ⟨t, ht, isClimbed_sum_of_product hread⟩
  | @sum op _ _ _ _ hop _ _ iht ihu =>
    obtain ⟨t, ht, hreadt⟩ := iht (by grind)
    obtain ⟨u, hu, hreadu⟩ := ihu (by grind)
    have hright : op.rightPrecedence = .multiplicative := by
      cases op <;> first | rfl | contradiction
    exact ⟨.binary op t u, .binary ht hu, isClimbed_left .product hop hright rfl
      (by rw [hop]; decide) (by decide) hreadt hreadu⟩

/-- **Climbing finds what the grammar derives.** -/
theorem Reads.ofTokens? {ts : List Token} {e : Expr α} (h : Reads .sum ts e)
    (hts : ∀ token ∈ ts, token.IsLexical) : ∃ t, Denotes t e ∧ Term.ofTokens? ts = some t := by
  obtain ⟨t, ht, hread⟩ := h.isRead hts
  have hall : IsClimbed .sum ts t := hread
  exact ⟨t, ht, hall.ofTokens?⟩

end Formula

end SymbolicCalculus
