import SymbolicCalculus.Formula.Parser
import SymbolicCalculus.Proofs.BalancedText
import SymbolicCalculus.Proofs.Outcome
import SymbolicCalculus.Proofs.Words

/-!
# Steps of the parser

What the parser does next in a group: it skips a blank, takes a sign or an operator, takes an
operand, which is a group between parentheses, a letter, a call or a number (`OperandAt`), or finds
none (`StopsAt`). There is nothing else (`step_cases`), and so a run succeeds or fails in these ways
only (`operands_eq_ok`, `operands_eq_error`).
-/

namespace SymbolicCalculus.Formula

open Nesting (byteLength)

variable {α : Type} [Numeral α]

/-! ## Between operands -/

section between

variable {limit depth start index : Nat} {acc : Accumulator α}

theorem operands_nil :
    operands limit depth start acc index [] = acc.finish start index := by
  rw [operands]

theorem operands_blank {c : Char} {rest : List Char} (hc : Text.isBlank c = true) :
    operands limit depth start acc index (c :: rest) =
      operands limit depth start acc (index + c.utf8Size) rest := by
  rw [operands, if_pos hc]

theorem operands_operator (op : Operator) (rest : List Char) :
    operands limit depth start acc index (op.symbol :: rest) =
      acc.operator op index >>= fun acc => operands limit depth start acc (index + 1) rest := by
  rw [operands, if_neg (by cases op <;> decide), Operator.ofSymbol?_symbol]

end between

/-! ## At an operand -/

/-- The text at byte `index` of a group starts with an operand, and goes on after it. -/
inductive OperandAt (limit depth index : Nat) :
    List Char → Expr α → Nat → List Char → Prop
  | group {rest inside after : List Char} {e : Expr α} :
    Nesting.splitClosing? 0 rest = some (inside, after) →
    group limit (depth + 1) (index + 1) inside = .ok e →
    OperandAt limit depth index ('(' :: rest) e (index + byteLength inside + 2) after
  | letter {c : Char} {rest : List Char} :
    c.isAlpha = true → Builtin.called? (c :: rest) = none →
    OperandAt limit depth index (c :: rest) (.param (String.singleton c)) (index + 1) rest
  | call {c : Char} {rest afterName inside after : List Char} {f : Builtin} {parenthesis : Nat}
    {es : List (Expr α)} {e : Expr α} :
    c.isAlpha = true → Builtin.called? (c :: rest) = some (f, afterName) →
    parenthesis =
      index + byteLength f.letters + byteLength (afterName.takeWhile Text.isBlank) →
    Nesting.splitClosing? 0 ((Text.skipBlanks afterName).drop 1) = some (inside, after) →
    arguments limit (depth + 1) (parenthesis + 1) (Nesting.spans inside) = .ok es →
    Expr.accepted? f es = some e →
    OperandAt limit depth index (c :: rest) e (parenthesis + byteLength inside + 2) after
  | number {c : Char} {rest text after : List Char} {v : α} :
    c.isDigit = true ∨ c = '.' → Literal.literal? (c :: rest) = some (text, after) →
    Literal.value? text = some v →
    OperandAt limit depth index (c :: rest) (.const v) (index + byteLength text) after

variable (α) in
/-- The text at byte `index` of a group starts with what is no operand, for this reason. -/
inductive StopsAt (limit depth index : Nat) : List Char → ParseError → Prop
  | unopened (rest : List Char) :
    StopsAt limit depth index (')' :: rest) (.unbalancedParenthesis index)
  | unclosed {rest : List Char} :
    Nesting.splitClosing? 0 rest = none →
    StopsAt limit depth index ('(' :: rest) (.unbalancedParenthesis index)
  | group {rest inside after : List Char} {err : ParseError} :
    Nesting.splitClosing? 0 rest = some (inside, after) →
    group (α := α) limit (depth + 1) (index + 1) inside = .error err →
    StopsAt limit depth index ('(' :: rest) err
  | unclosedCall {c : Char} {rest afterName : List Char} {f : Builtin} {parenthesis : Nat} :
    c.isAlpha = true → Builtin.called? (c :: rest) = some (f, afterName) →
    parenthesis =
      index + byteLength f.letters + byteLength (afterName.takeWhile Text.isBlank) →
    Nesting.splitClosing? 0 ((Text.skipBlanks afterName).drop 1) = none →
    StopsAt limit depth index (c :: rest) (.unbalancedParenthesis parenthesis)
  | arguments {c : Char} {rest afterName inside after : List Char} {f : Builtin}
    {parenthesis : Nat} {err : ParseError} :
    c.isAlpha = true → Builtin.called? (c :: rest) = some (f, afterName) →
    parenthesis =
      index + byteLength f.letters + byteLength (afterName.takeWhile Text.isBlank) →
    Nesting.splitClosing? 0 ((Text.skipBlanks afterName).drop 1) = some (inside, after) →
    arguments (α := α) limit (depth + 1) (parenthesis + 1) (Nesting.spans inside) = .error err →
    StopsAt limit depth index (c :: rest) err
  | arity {c : Char} {rest afterName inside after : List Char} {f : Builtin} {parenthesis : Nat}
    {es : List (Expr α)} :
    c.isAlpha = true → Builtin.called? (c :: rest) = some (f, afterName) →
    parenthesis =
      index + byteLength f.letters + byteLength (afterName.takeWhile Text.isBlank) →
    Nesting.splitClosing? 0 ((Text.skipBlanks afterName).drop 1) = some (inside, after) →
    Formula.arguments limit (depth + 1) (parenthesis + 1) (Nesting.spans inside) = .ok es →
    Expr.accepted? f es = none →
    StopsAt limit depth index (c :: rest) (.wrongArity f es.length index)
  | character {c : Char} {rest : List Char} :
    Text.isBlank c = false → Operator.ofSymbol? c = none → c ≠ '(' → c ≠ ')' →
    c.isAlpha = false → (c.isDigit = true ∨ c = '.' → Literal.literal? (c :: rest) = none) →
    StopsAt limit depth index (c :: rest) (.unexpectedCharacter c index)

variable {limit depth start index : Nat} {acc : Accumulator α}

theorem operands_open (rest : List Char) :
    operands limit depth start acc index ('(' :: rest) =
      match Nesting.splitClosing? 0 rest with
      | none => .error (.unbalancedParenthesis index)
      | some (inside, after) =>
        group limit (depth + 1) (index + 1) inside >>= fun e =>
          acc.operand e index >>= fun acc =>
            operands limit depth start acc (index + byteLength inside + 2) after := by
  have hsymbol : Operator.ofSymbol? '(' = none := rfl
  rw [operands, if_neg (by decide)]
  simp only [hsymbol, ↓reduceIte]
  split
  · next hsplit => rw [hsplit]
  · next hsplit => rw [hsplit]

theorem operands_letter {c : Char} {rest : List Char} (hc : c.isAlpha = true)
    (hcall : Builtin.called? (c :: rest) = none) :
    operands limit depth start acc index (c :: rest) =
      acc.operand (.param (String.singleton c)) index >>= fun acc =>
        operands limit depth start acc (index + 1) rest := by
  have hword : IsWordChar c := .inl hc
  rw [operands, if_neg (by simp [hword.isBlank])]
  simp only [hword.ofSymbol?, hword.ne, hc, ↓reduceIte]
  split
  · rfl
  · next hsome =>
    rw [hcall] at hsome
    contradiction

theorem operands_call {c : Char} {rest afterName : List Char} {f : Builtin} {parenthesis : Nat}
    (hc : c.isAlpha = true) (hcall : Builtin.called? (c :: rest) = some (f, afterName))
    (hparenthesis : parenthesis =
      index + byteLength f.letters + byteLength (afterName.takeWhile Text.isBlank)) :
    operands limit depth start acc index (c :: rest) =
      match Nesting.splitClosing? 0 ((Text.skipBlanks afterName).drop 1) with
      | none => .error (.unbalancedParenthesis parenthesis)
      | some (inside, after) =>
        arguments limit (depth + 1) (parenthesis + 1) (Nesting.spans inside) >>= fun es =>
          match Expr.accepted? f es with
          | none => .error (.wrongArity f es.length index)
          | some e =>
            acc.operand e index >>= fun acc =>
              operands limit depth start acc (parenthesis + byteLength inside + 2) after := by
  have hword : IsWordChar c := .inl hc
  rw [operands, if_neg (by simp [hword.isBlank])]
  simp only [hword.ofSymbol?, hword.ne, hc, ↓reduceIte]
  split
  · next hnone =>
    rw [hcall] at hnone
    contradiction
  · next g afterName' hsome =>
    obtain ⟨rfl, rfl⟩ : f = g ∧ afterName = afterName' := by simpa using hcall.symm.trans hsome
    rw [hparenthesis]
    split
    · next hsplit => rw [hsplit]
    · next hsplit => exact hsplit ▸ rfl

theorem operands_number {c : Char} {rest text after : List Char} (hc : c.isDigit = true ∨ c = '.')
    (hliteral : Literal.literal? (c :: rest) = some (text, after)) {v : α}
    (hv : Literal.value? text = some v) :
    operands limit depth start acc index (c :: rest) =
      acc.operand (.const v) index >>= fun acc =>
        operands limit depth start acc (index + byteLength text) after := by
  have hword : IsWordChar c := .inr hc
  rw [operands, if_neg (by simp [hword.isBlank])]
  simp only [hword.ofSymbol?, hword.ne, isAlpha_of_isDigit hc, ↓reduceIte]
  rw [if_neg (by decide), if_pos (by simpa using hc)]
  split
  · next hnone =>
    rw [hliteral] at hnone
    contradiction
  · next t a hsome =>
    obtain ⟨rfl, rfl⟩ : text = t ∧ after = a := by simpa using hliteral.symm.trans hsome
    simp only [hv]

theorem OperandAt.operands {cs after : List Char} {e : Expr α} {index' : Nat}
    (h : OperandAt limit depth index cs e index' after) :
    Formula.operands limit depth start acc index cs =
      acc.operand e index >>= fun acc =>
        Formula.operands limit depth start acc index' after := by
  cases h with
  | group hsplit hgroup =>
    rw [operands_open, hsplit]
    simp only [hgroup]
    rfl
  | letter hc hcall => exact operands_letter hc hcall
  | call hc hcall hparenthesis hsplit hes he =>
    rw [operands_call hc hcall hparenthesis, hsplit]
    simp only [hes, bind, Except.bind, he]
  | number hc hliteral hv => exact operands_number hc hliteral hv

theorem StopsAt.operands {cs : List Char} {err : ParseError}
    (h : StopsAt α limit depth index cs err) :
    Formula.operands limit depth start acc index cs = .error err := by
  cases h with
  | unopened rest =>
    rw [Formula.operands, if_neg (by decide)]
    rfl
  | unclosed hnone => rw [operands_open, hnone]
  | group hsplit hgroup =>
    rw [operands_open, hsplit]
    simp only [hgroup]
    rfl
  | unclosedCall hc hcall hparenthesis hsplit =>
    rw [operands_call hc hcall hparenthesis, hsplit]
  | arguments hc hcall hparenthesis hsplit hes =>
    rw [operands_call hc hcall hparenthesis, hsplit]
    simp only [hes]
    rfl
  | arity hc hcall hparenthesis hsplit hes he =>
    rw [operands_call hc hcall hparenthesis, hsplit]
    simp only [hes, bind, Except.bind, he]
  | @character c rest hblank hsymbol hopen hclose halpha hliteral =>
    rw [Formula.operands, if_neg (by simp [hblank])]
    simp only [hsymbol, hopen, hclose, halpha, Bool.false_eq_true, ↓reduceIte]
    split
    · next hc =>
      split
      · rfl
      · next hsome =>
        rw [hliteral (by simpa using hc)] at hsome
        contradiction
    · rfl

/-! ## What a run did -/

/-- A text starts with a blank, with an operator, with an operand, or with what is none of them. -/
theorem step_cases (limit depth index : Nat) (c : Char) (rest : List Char) :
    Text.isBlank c = true ∨ (∃ op, c = Operator.symbol op) ∨
      (∃ (e : Expr α) (index' : Nat) (after : List Char),
        OperandAt limit depth index (c :: rest) e index' after) ∨
      ∃ err, StopsAt α limit depth index (c :: rest) err := by
  by_cases hblank : Text.isBlank c = true
  · exact .inl hblank
  right
  by_cases hop : ∃ op, c = Operator.symbol op
  · exact .inl hop
  right
  have hsymbol : Operator.ofSymbol? c = none :=
    Option.eq_none_iff_forall_ne_some.mpr fun op h =>
      hop ⟨op, Operator.ofSymbol?_eq_some_iff.mp h⟩
  by_cases hopen : c = '('
  · subst hopen
    cases hsplit : Nesting.splitClosing? 0 rest with
    | none => exact .inr ⟨_, .unclosed hsplit⟩
    | some split =>
      obtain ⟨inside, after⟩ := split
      cases hgroup : group (α := α) limit (depth + 1) (index + 1) inside with
      | error err => exact .inr ⟨err, .group hsplit hgroup⟩
      | ok e => exact .inl ⟨e, _, after, .group hsplit hgroup⟩
  by_cases hclose : c = ')'
  · subst hclose
    exact .inr ⟨_, .unopened rest⟩
  by_cases halpha : c.isAlpha = true
  · cases hcall : Builtin.called? (c :: rest) with
    | none => exact .inl ⟨_, _, rest, .letter halpha hcall⟩
    | some called =>
      obtain ⟨f, afterName⟩ := called
      cases hsplit : Nesting.splitClosing? 0 ((Text.skipBlanks afterName).drop 1) with
      | none => exact .inr ⟨_, .unclosedCall halpha hcall rfl hsplit⟩
      | some split =>
        obtain ⟨inside, after⟩ := split
        cases hes : arguments (α := α) limit (depth + 1)
            (index + byteLength f.letters + byteLength (afterName.takeWhile Text.isBlank) + 1)
            (Nesting.spans inside) with
        | error err => exact .inr ⟨err, .arguments halpha hcall rfl hsplit hes⟩
        | ok es =>
          cases he : Expr.accepted? f es with
          | none => exact .inr ⟨_, .arity halpha hcall rfl hsplit hes he⟩
          | some e => exact .inl ⟨e, _, after, .call halpha hcall rfl hsplit hes he⟩
  have hcharacter (hliteral : c.isDigit = true ∨ c = '.' → Literal.literal? (c :: rest) = none) :
      ∃ err, StopsAt α limit depth index (c :: rest) err :=
    ⟨_, .character (by simpa using hblank) hsymbol hopen hclose (by simpa using halpha) hliteral⟩
  by_cases hdigit : c.isDigit = true ∨ c = '.'
  · cases hliteral : Literal.literal? (c :: rest) with
    | none => exact .inr (hcharacter fun _ => hliteral)
    | some literal =>
      obtain ⟨text, after⟩ := literal
      obtain ⟨v, hv⟩ := Literal.IsLiteral.exists_value (α := α) ⟨_, _, hliteral⟩
      exact .inl ⟨_, _, after, .number hdigit hliteral hv⟩
  · exact .inr (hcharacter fun h => absurd h hdigit)

theorem length_of_called_group {c : Char} {rest afterName inside after : List Char} {f : Builtin}
    (hcall : Builtin.called? (c :: rest) = some (f, afterName))
    (hsplit : Nesting.splitClosing? 0 ((Text.skipBlanks afterName).drop 1) = some (inside, after)) :
    inside.length + after.length + 1 < (c :: rest).length := by
  have hinside := Nesting.length_of_splitClosing? hsplit
  have hname := Builtin.length_of_called? hcall
  have hblanks := Text.length_skipBlanks_le afterName
  rw [List.length_drop] at hinside
  omega

theorem OperandAt.length_lt {cs after : List Char} {e : Expr α} {index' : Nat}
    (h : OperandAt limit depth index cs e index' after) : after.length < cs.length := by
  cases h with
  | group hsplit _ =>
    have := Nesting.length_of_splitClosing? hsplit
    rw [List.length_cons]
    omega
  | letter _ _ => exact Nat.lt_succ_self _
  | call _ hcall _ hsplit _ _ =>
    have := length_of_called_group hcall hsplit
    omega
  | number _ hliteral _ => exact Literal.length_of_literal? hliteral

/-- A successful run over the rest of a group is at its end, or goes on after a blank, an operator
or an operand. -/
theorem operands_eq_ok {cs : List Char} {r : Expr α}
    (h : operands limit depth start acc index cs = .ok r) :
    (cs = [] ∧ acc.finish start index = .ok r) ∨
    (∃ c rest, cs = c :: rest ∧ Text.isBlank c = true ∧
      operands limit depth start acc (index + c.utf8Size) rest = .ok r) ∨
    (∃ op rest acc', cs = op.symbol :: rest ∧ acc.operator op index = .ok acc' ∧
      operands limit depth start acc' (index + 1) rest = .ok r) ∨
    ∃ e index' after acc', OperandAt limit depth index cs e index' after ∧
      acc.operand e index = .ok acc' ∧ operands limit depth start acc' index' after = .ok r := by
  cases cs with
  | nil =>
    rw [operands_nil] at h
    exact .inl ⟨rfl, h⟩
  | cons c rest =>
    right
    obtain hc | ⟨op, rfl⟩ | ⟨e, index', after, hat⟩ | ⟨err, hstops⟩ :=
      step_cases (α := α) limit depth index c rest
    · rw [operands_blank hc] at h
      exact .inl ⟨c, rest, rfl, hc, h⟩
    · rw [operands_operator] at h
      obtain ⟨acc', hacc', h⟩ := bind_eq_ok.mp h
      exact .inr (.inl ⟨op, rest, acc', rfl, hacc', h⟩)
    · rw [hat.operands] at h
      obtain ⟨acc', hacc', h⟩ := bind_eq_ok.mp h
      exact .inr (.inr ⟨e, index', after, acc', hat, hacc', h⟩)
    · rw [hstops.operands] at h
      contradiction

/-- A run that fails over the rest of a group is at its end, or is at a blank, an operator or an
operand that it fails to take or after which it fails, or it stops. -/
theorem operands_eq_error {cs : List Char} {err : ParseError}
    (h : operands limit depth start acc index cs = .error err) :
    (cs = [] ∧ acc.finish start index = .error err) ∨
    (∃ c rest, cs = c :: rest ∧ Text.isBlank c = true ∧
      operands limit depth start acc (index + c.utf8Size) rest = .error err) ∨
    (∃ op rest, cs = op.symbol :: rest ∧ (acc.operator op index = .error err ∨
      ∃ acc', acc.operator op index = .ok acc' ∧
        operands limit depth start acc' (index + 1) rest = .error err)) ∨
    (∃ e index' after, OperandAt limit depth index cs e index' after ∧
      (acc.operand e index = .error err ∨
        ∃ acc', acc.operand e index = .ok acc' ∧
          operands limit depth start acc' index' after = .error err)) ∨
    StopsAt α limit depth index cs err := by
  cases cs with
  | nil =>
    rw [operands_nil] at h
    exact .inl ⟨rfl, h⟩
  | cons c rest =>
    right
    obtain hc | ⟨op, rfl⟩ | ⟨e, index', after, hat⟩ | ⟨err', hstops⟩ :=
      step_cases (α := α) limit depth index c rest
    · rw [operands_blank hc] at h
      exact .inl ⟨c, rest, rfl, hc, h⟩
    · rw [operands_operator] at h
      exact .inr (.inl ⟨op, rest, rfl, bind_eq_error.mp h⟩)
    · rw [hat.operands] at h
      exact .inr (.inr (.inl ⟨e, index', after, hat, bind_eq_error.mp h⟩))
    · rw [hstops.operands] at h
      obtain rfl := Except.error.inj h
      exact .inr (.inr (.inr hstops))

end SymbolicCalculus.Formula
