import SymbolicCalculus.Proofs.HigherDerivatives
import SymbolicCalculus.Proofs.ParsedFormula
import SymbolicCalculus.Proofs.WrittenTokens

/-!
# Texts that cannot be bracketed

A text that is no formula goes to the parser as its tokens, written out one after another. The
parser cuts them apart in the same way and finds that they are no formula, unless a point that stood
by itself became part of a number (`Formula.read_fails`). Between the parentheses that a function is
read from, the tokens also must not close a parenthesis that they did not open.
-/

namespace SymbolicCalculus

open Token (joins AreCut)

namespace Token

/-- Does every closing parenthesis close one of the tokens, or one of the `depth` that are open
before them? -/
def closesOpen : Nat → List Token → Bool
  | _, [] => true
  | depth, openParen :: ts => closesOpen (depth + 1) ts
  | 0, closeParen :: _ => false
  | depth + 1, closeParen :: ts => closesOpen depth ts
  | depth, _ :: ts => closesOpen depth ts

/-- What is neither an opening nor a closing parenthesis is written without any. -/
theorem plain_chars {token : Token} {rest : List Token} (hcut : token.IsCutBefore rest)
    (hopen : token ≠ openParen) (hclose : token ≠ closeParen) :
    ∀ c ∈ token.chars, c ≠ '(' ∧ c ≠ ')' := by
  cases token with
  | number digits =>
    have hdigits : Literal.IsLiteral digits := hcut
    intro c hc
    rcases hdigits.mem hc with hd | rfl | rfl
    · exact (Nesting.plain_of_isDigit hd).imp_right And.left
    · decide
    · decide
  | letter c =>
    have hne := IsWordChar.ne (.inl hcut)
    exact List.forall_mem_singleton.mpr ⟨hne.1, hne.2.1⟩
  | function f => exact fun c hc => (Term.plain_letters f c hc).imp_right And.left
  | openParen => contradiction
  | closeParen => contradiction
  | comma =>
    have hcomma : ',' ≠ '(' ∧ ',' ≠ ')' := by decide
    have hspace : ' ' ≠ '(' ∧ ' ' ≠ ')' := by decide
    exact List.forall_mem_cons.mpr ⟨hcomma, List.forall_mem_singleton.mpr hspace⟩
  | operator op => exact List.forall_mem_singleton.mpr (op.plain_symbol.imp_right And.left)
  | unknown c => exact List.forall_mem_singleton.mpr (hcut.plain.imp_right And.left)

/-- A parenthesis after the tokens is the first one that closes a group around them. -/
theorem splitClosing?_flatMap_chars {ts : List Token} {depth : Nat} (hcut : AreCut ts)
    (hcloses : closesOpen depth ts = true) {inside after : List Char}
    (h : Nesting.splitClosing? depth (ts.flatMap chars ++ [')']) = some (inside, after)) :
    inside = ts.flatMap chars ∧ after = [] := by
  have hmap (word : List Char) {depth : Nat} {cs inside : List Char}
      (h : (Nesting.splitClosing? depth cs).map (fun p => (word ++ p.1, p.2)) =
        some (inside, after)) :
      ∃ i, Nesting.splitClosing? depth cs = some (i, after) ∧ word ++ i = inside := by
    obtain ⟨⟨i, a⟩, hrec, heq⟩ := Option.map_eq_some_iff.mp h
    obtain ⟨rfl, rfl⟩ : word ++ i = inside ∧ a = after := by simpa using heq
    exact ⟨i, hrec, rfl⟩
  fun_induction closesOpen depth ts generalizing inside with
  | case1 depth =>
    cases depth with
    | zero =>
      obtain ⟨rfl, rfl⟩ : [] = inside ∧ [] = after := by simpa [Nesting.splitClosing?] using h
      exact ⟨rfl, rfl⟩
    | succ depth => simp [Nesting.splitClosing?] at h
  | case2 depth ts ih =>
    rw [List.flatMap_cons, List.append_assoc] at h
    obtain ⟨i, hrec, rfl⟩ :=
      hmap ['('] ((Nesting.splitClosing?_cons (by decide) depth _).symm.trans h)
    obtain ⟨rfl, rfl⟩ := ih hcut.2 hcloses hrec
    exact ⟨rfl, rfl⟩
  | case3 => contradiction
  | case4 depth ts ih =>
    rw [List.flatMap_cons, List.append_assoc] at h
    obtain ⟨i, hrec, rfl⟩ := hmap [')'] ((Nesting.splitClosing?_close depth _).symm.trans h)
    obtain ⟨rfl, rfl⟩ := ih hcut.2 hcloses hrec
    exact ⟨rfl, rfl⟩
  | case5 depth token ts hopen hclose hclose' ih =>
    have hplain : ∀ c ∈ token.chars, c ≠ '(' ∧ c ≠ ')' := by
      refine plain_chars hcut.1 hopen ?_
      rintro rfl
      cases depth with
      | zero => exact hclose rfl rfl
      | succ depth => exact hclose' depth rfl rfl
    rw [List.flatMap_cons, List.append_assoc,
      (Nesting.Balanced.of_plain hplain).splitClosing?] at h
    obtain ⟨i, hrec, rfl⟩ := hmap token.chars h
    obtain ⟨rfl, rfl⟩ := ih hcut.2 hcloses hrec
    exact ⟨rfl, rfl⟩

end Token

namespace Formula

variable {α : Type} [Numeral α]

/-! ## The group between the parentheses -/

/-- Whatever is read between the parentheses after a zero and a plus sign starts with a group that
ends at the first parenthesis which closes it. -/
theorem exists_group_of_wrapped {maxDepth : Nat} {cs : List Char} {e : Expr α}
    (h : parseChars maxDepth (['0', '+', '('] ++ cs ++ [')']) = .ok e) :
    ∃ inside after, Nesting.splitClosing? 0 (cs ++ [')']) = some (inside, after) ∧
      ∃ a : Expr α, group maxDepth 1 3 inside = .ok a := by
  have heq : ['0', '+', '('] ++ cs ++ [')'] = '0' :: '+' :: '(' :: (cs ++ [')']) := by simp
  rw [heq, parseChars_zero_plus] at h
  obtain ⟨hnil, -⟩ | ⟨c, rest, hc, hblank, -⟩ | ⟨op, rest, acc', hop, -, -⟩ |
    ⟨a, index', after, acc', hat, -, -⟩ := operands_eq_ok h
  · contradiction
  · obtain rfl := (List.cons.inj hc).1
    contradiction
  · exact absurd (List.cons.inj hop).1.symm op.plain_symbol.1
  · cases hat with
    | group hsplit hgroup => exact ⟨_, _, hsplit, a, hgroup⟩
    | letter hc _ => contradiction
    | call hc _ _ _ _ _ => contradiction
    | number hc _ _ => rcases hc with hc | hc <;> contradiction

/-! ## Tokens that are no formula -/

section tokens

variable {cs : List Char}

theorem areCut_tokens (cs : List Char) : AreCut (tokens cs) :=
  Token.areCut_withProducts (Token.areCut_ofChars cs)

/-- If the tokens that are written out are read, then they are a formula. -/
theorem exists_ofTokens?_of_derives (hjoins : (tokens cs).IsChain fun a b => joins a b = false)
    {n : Nat} {e : Expr α} (h : Derives .group n ((tokens cs).flatMap Token.chars) e) :
    ∃ t, Term.ofTokens? (tokens cs) = some t := by
  have hchars : Token.ofChars ((tokens cs).flatMap Token.chars) = tokens cs :=
    Token.ofChars_flatMap_chars (areCut_tokens cs) (Token.isChain_withProducts _) hjoins
  obtain ⟨e', he', -⟩ := exists_reads_of_derives h
  rw [hchars] at he'
  obtain ⟨t, -, ht⟩ := he'.ofTokens? (Token.isLexical_withProducts (Token.isLexical_ofChars cs))
  exact ⟨t, ht⟩

variable (h : Term.ofTokens? (tokens cs) = none)
  (hjoins : (tokens cs).IsChain fun a b => joins a b = false)

include h hjoins

theorem bracketed_not_read (maxDepth : Nat) (e : Expr α) :
    parseChars maxDepth (bracketed cs) ≠ .ok e := by
  intro hok
  rw [bracketed, h] at hok
  have hderives := HasRead.start.of_operands (Nat.zero_add maxDepth) (group_eq_ok hok).2
  obtain ⟨t, ht⟩ := exists_ofTokens?_of_derives hjoins hderives
  exact Option.some_ne_none t (ht.symm.trans h)

theorem wrapped_not_read (hcloses : Token.closesOpen 0 (tokens cs) = true) (maxDepth : Nat)
    (e : Expr α) : parseChars maxDepth (['0', '+', '('] ++ bracketed cs ++ [')']) ≠ .ok e := by
  intro hok
  obtain ⟨inside, after, hsplit, a, hgroup⟩ := exists_group_of_wrapped hok
  rw [bracketed, h] at hsplit
  obtain ⟨rfl, -⟩ := Token.splitClosing?_flatMap_chars (areCut_tokens cs) hcloses hsplit
  obtain ⟨hlimit, hoperands⟩ := group_eq_ok hgroup
  have hderives := HasRead.start.of_operands (Nat.add_sub_cancel' hlimit) hoperands
  obtain ⟨t, ht⟩ := exists_ofTokens?_of_derives hjoins hderives
  exact Option.some_ne_none t (ht.symm.trans h)

end tokens

/-- **A text that cannot be bracketed is not read**, unless a point becomes part of a number that it
stood apart from. As the formula of a function it is not read either, unless it closes a parenthesis
that it did not open. -/
theorem read_fails [Scalar α] {text : String}
    (h : Term.ofTokens? (tokens text.toList) = none)
    (hjoins : (tokens text.toList).IsChain fun a b => joins a b = false) :
    (∀ maxDepth, ∃ err, (read maxDepth text : Except ParseError (Expr α)) = .error err) ∧
      (Token.closesOpen 0 (tokens text.toList) = true → ∀ limits, ∃ err,
        (readFunction limits text : Traced α (Lambda α)).result = .error (.parse err)) := by
  constructor
  · intro maxDepth
    refine exists_error_of_ne_ok fun e => ?_
    rw [read, parse, parenthesize, String.toList_ofList]
    exact bracketed_not_read h hjoins maxDepth e
  · intro hcloses limits
    obtain ⟨err, herr⟩ : ∃ err, (parse limits.maxDepth (normalize text) :
        Except ParseError (Expr α)) = .error err := by
      refine exists_error_of_ne_ok fun e => ?_
      rw [parse, normalize, String.toList_ofList]
      exact wrapped_not_read h hjoins hcloses limits.maxDepth e
    exact ⟨err, result_readFunction_of_error herr⟩

/-- A number and something after it that does not go on with an operator. -/
theorem ofTokens?_number_eq_none {digits : List Char} {token : Token} {rest : List Token}
    (h : ∀ op, token ≠ .operator op) :
    Term.ofTokens? (.number digits :: token :: rest) = none := by
  have hstops : Term.Stops .additive (token :: rest) :=
    fun op _ heq => absurd (List.cons.inj heq).1 (h op)
  have hread : Term.readExpression .additive (.number digits :: token :: rest) =
      some (.number digits, token :: rest) := by
    rw [Term.readExpression_eq, Term.readOperand_number]
    exact Term.readClimb_of_stops hstops _
  exact Term.ofTokens?_eq_none hread

/-- A second point after a number is an unknown character. -/
theorem read_fails_of_second_point :
    let text := "1. . + 2*3"
    Term.ofTokens? (tokens text.toList) = none ∧
      ((tokens text.toList).IsChain fun a b => joins a b = false) ∧
      Token.closesOpen 0 (tokens text.toList) = true ∧
      (∃ err, (read 512 text : Except ParseError (Expr Binary64)) = .error err) ∧
      ∃ err, (readFunction {} text : Traced Binary64 (Lambda Binary64)).result =
        .error (.parse err) := by
  intro text
  have htokens : tokens text.toList = [.number ['1', '.'], .unknown '.', .operator .plus,
      .number ['2'], .operator .times, .number ['3']] := by
    rw [tokens_eq]
    decide
  have hnone : Term.ofTokens? (tokens text.toList) = none := by
    rw [htokens]
    exact ofTokens?_number_eq_none (by simp)
  have hjoins : (tokens text.toList).IsChain fun a b => joins a b = false := by
    rw [htokens]
    decide
  have hcloses : Token.closesOpen 0 (tokens text.toList) = true := by
    rw [htokens]
    rfl
  obtain ⟨hread, hfunction⟩ := read_fails (α := Binary64) hnone hjoins
  exact ⟨hnone, hjoins, hcloses, hread 512, hfunction hcloses {}⟩

/-- A point that stood by itself becomes part of the number before it, and the sum and the product
after it are read from the left. A function is read although its text closes the parenthesis around
it. -/
theorem read_unbracketed :
    (Term.ofTokens? (tokens "1 .+2*3".toList) = none ∧
      (read 512 "1 .+2*3" : Except ParseError (Expr Binary64)) =
        .ok (.product (.sum (.const (Numeral.ofDecimal 1 0)) (.const (Numeral.ofDecimal 2 0)))
          (.const (Numeral.ofDecimal 3 0)))) ∧
    Term.ofTokens? (tokens "1)+(2".toList) = none ∧
      ∃ f : Lambda Binary64, (readFunction {} "1)+(2").result = .ok f := by
  have hdigit (c : Char) (hc : c.isDigit = true) : Literal.IsLiteral [c] :=
    Literal.isLiteral_of_digits (List.cons_ne_nil c []) (by simpa using hc)
  refine ⟨?_, ?_⟩
  · have htokens : tokens "1 .+2*3".toList = [.number ['1'], .unknown '.', .operator .plus,
        .number ['2'], .operator .times, .number ['3']] := by
      rw [tokens_eq]
      decide
    have hnone : Term.ofTokens? (tokens "1 .+2*3".toList) = none := by
      rw [htokens]
      exact ofTokens?_number_eq_none (by simp)
    refine ⟨hnone, ?_⟩
    have hpoint : Literal.IsLiteral ['1', '.'] := ⟨['1', '.'], [], by decide⟩
    rw [read, parse, parseChars_eq_ok_iff, parenthesize, String.toList_ofList, bracketed, hnone,
      htokens]
    have hsum : Derives .group 512 (['1', '.'] ++ Operator.plus.symbol :: ['2'])
        (.sum (.const (Numeral.ofDecimal 1 0)) (.const (Numeral.ofDecimal 2 0)) :
          Expr Binary64) :=
      .operator .plus (.operand (.number hpoint rfl)) (.number (hdigit '2' rfl) rfl)
    exact .operator .times hsum (.number (hdigit '3' rfl) rfl)
  · have htokens : tokens "1)+(2".toList = [.number ['1'], .closeParen, .operator .plus,
        .openParen, .number ['2']] := by
      rw [tokens_eq]
      decide
    have hnone : Term.ofTokens? (tokens "1)+(2".toList) = none := by
      rw [htokens]
      exact ofTokens?_number_eq_none (by simp)
    have hparse : parse ({} : Limits).maxDepth (normalize "1)+(2") = .ok
        (.sum (.sum (.const (Numeral.ofDecimal 0 0)) (.const (Numeral.ofDecimal 1 0)))
          (.const (Numeral.ofDecimal 2 0)) : Expr Binary64) := by
      rw [parse, parseChars_eq_ok_iff, normalize, String.toList_ofList, bracketed, hnone, htokens]
      have hone : Derives .operand 512 ('(' :: ['1'] ++ [')'])
          (.const (Numeral.ofDecimal 1 0) : Expr Binary64) :=
        .parentheses (.operand (.number (hdigit '1' rfl) rfl))
      have htwo : Derives .operand 512 ('(' :: ['2'] ++ [')'])
          (.const (Numeral.ofDecimal 2 0) : Expr Binary64) :=
        .parentheses (.operand (.number (hdigit '2' rfl) rfl))
      have hsum := Derives.operator .plus (.operand (.number (hdigit '0' rfl) rfl)) hone
      exact .operator .plus hsum htwo
    exact ⟨hnone, _, result_readFunction_eq_ok.mpr ⟨_, hparse, rfl⟩⟩

end Formula

end SymbolicCalculus
