import SymbolicCalculus.Formula.Term
import SymbolicCalculus.Proofs.BalancedText
import SymbolicCalculus.Proofs.ParserSteps

/-!
# Terms read back

The text of a term has parentheses around every operator node, every negation and the arguments of
every call, so that a parser which knows no precedence reads the term's expression from it:
`Formula.parseChars_chars`. The parser is as many groups deep in the text as the expression has
nodes above it, and so the limit on groups is a limit on the height.
-/

namespace SymbolicCalculus

open Literal (IsLiteral EndsNumber)
open Nesting (Balanced byteLength)

variable {α : Type} [Numeral α]

namespace Term

/-- The expression that a term stands for. Its numbers must have a value and its calls as many
arguments as the function accepts. -/
inductive Denotes : Term → Expr α → Prop
  | number {digits : List Char} {v : α} :
    IsLiteral digits → Literal.value? digits = some v → Denotes (number digits) (.const v)
  | letter {c : Char} : c.isAlpha = true → Denotes (letter c) (.param (String.singleton c))
  | neg {t : Term} {e : Expr α} : Denotes t e → Denotes (neg t) (.neg e)
  | binary {op : Operator} {t u : Term} {a b : Expr α} :
    Denotes t a → Denotes u b → Denotes (binary op t u) (.binary op a b)
  | call₁ {f : Builtin} {t : Term} {x : Expr α} :
    f.accepts 1 = true → Denotes t x → Denotes (call f [t]) (.call₁ f x)
  | call₂ {f : Builtin} {t u : Term} {x y : Expr α} :
    f.accepts 2 = true → Denotes t x → Denotes u y → Denotes (call f [t, u]) (.call₂ f x y)

/-! ## The text of a term -/

theorem chars_neg (t : Term) : (neg t).chars = '(' :: ('-' :: t.chars) ++ [')'] := rfl

theorem chars_binary (op : Operator) (t u : Term) :
    (binary op t u).chars = '(' :: (t.chars ++ op.symbol :: u.chars) ++ [')'] := by
  simp [chars]

theorem chars_call (f : Builtin) (ts : List Term) :
    (call f ts).chars = f.letters ++ ('(' :: argumentChars ts ++ [')']) := by
  simp [chars]

theorem argumentChars_one (t : Term) : argumentChars [t] = t.chars := rfl

theorem argumentChars_two (t u : Term) :
    argumentChars [t, u] = t.chars ++ ',' :: ' ' :: u.chars := by
  simp [argumentChars]

theorem plain_letters (f : Builtin) : ∀ c ∈ f.letters, c ≠ '(' ∧ c ≠ ')' ∧ c ≠ ',' := by
  intro c hc
  have hletters : f.letters.all Char.isAlphanum = true := by cases f <;> rfl
  have hword : c.isAlpha = true ∨ c.isDigit = true := by
    simpa [Char.isAlphanum] using List.all_eq_true.mp hletters c hc
  exact IsWordChar.ne (hword.imp_right .inl)

theorem balanced_letters (f : Builtin) : Balanced f.letters :=
  .of_plain fun c hc => (plain_letters f c hc).imp_right And.left

theorem balanced_inside_neg {t : Term} (h : Balanced t.chars) : Balanced ('-' :: t.chars) :=
  .cons (by decide) (by decide) h

theorem balanced_inside_binary {op : Operator} {t u : Term} (ht : Balanced t.chars)
    (hu : Balanced u.chars) : Balanced (t.chars ++ op.symbol :: u.chars) := by
  have hop : op.symbol ≠ '(' ∧ op.symbol ≠ ')' := by cases op <;> decide
  exact ht.append (.cons hop.1 hop.2 hu)

theorem balanced_arguments {t u : Term} (ht : Balanced t.chars) (hu : Balanced u.chars) :
    Balanced (t.chars ++ ',' :: ' ' :: u.chars) :=
  ht.append (.cons (by decide) (by decide) (.cons (by decide) (by decide) hu))

namespace Denotes

theorem balanced {t : Term} {e : Expr α} (h : Denotes t e) : Balanced t.chars := by
  induction h with
  | @number digits v hdigits _ =>
    refine .of_plain fun c hc => ?_
    rcases hdigits.mem hc with hd | rfl | rfl
    · exact (Nesting.plain_of_isDigit hd).imp_right And.left
    · decide
    · decide
  | @letter c hc =>
    have hne := IsWordChar.ne (.inl hc)
    exact .cons hne.1 hne.2.1 .nil
  | neg _ ih =>
    rw [chars_neg]
    exact (balanced_inside_neg ih).enclosed
  | binary _ _ iht ihu =>
    rw [chars_binary]
    exact (balanced_inside_binary iht ihu).enclosed
  | @call₁ f t x _ _ ih =>
    rw [chars_call, argumentChars_one]
    exact (balanced_letters f).append ih.enclosed
  | @call₂ f t u x y _ _ _ iht ihu =>
    rw [chars_call, argumentChars_two]
    exact (balanced_letters f).append (balanced_arguments iht ihu).enclosed

/-- A term is part of one argument, up to a comma that separates arguments. -/
theorem splitArguments {t : Term} {e : Expr α} (h : Denotes t e) {rest : List Char}
    (hrest : Literal.StartsWithoutDigit rest) :
    Nesting.splitArguments 0 (t.chars ++ rest) =
      (t.chars ++ (Nesting.splitArguments 0 rest).1, (Nesting.splitArguments 0 rest).2) := by
  cases h with
  | number hdigits => exact Nesting.splitArguments_literal hdigits hrest
  | @letter c hc =>
    have hplain : ∀ d ∈ [c], d ≠ '(' ∧ d ≠ ')' ∧ d ≠ ',' := by
      simpa using IsWordChar.ne (.inl hc)
    exact Nesting.splitArguments_plain hplain 0 rest
  | neg h =>
    rw [chars_neg]
    exact (balanced_inside_neg h.balanced).splitArguments_zero [] (List.forall_mem_nil _) rest
  | @binary op t u a b ht hu =>
    rw [chars_binary]
    have hinside : Balanced (t.chars ++ op.symbol :: u.chars) :=
      balanced_inside_binary ht.balanced hu.balanced
    exact hinside.splitArguments_zero [] (List.forall_mem_nil _) rest
  | @call₁ f t x _ ht =>
    rw [chars_call, argumentChars_one]
    exact ht.balanced.splitArguments_zero f.letters (plain_letters f) rest
  | @call₂ f t u x y _ ht hu =>
    rw [chars_call, argumentChars_two]
    have hinside := balanced_arguments ht.balanced hu.balanced
    exact hinside.splitArguments_zero f.letters (plain_letters f) rest

theorem splitArguments_chars {t : Term} {e : Expr α} (h : Denotes t e) :
    Nesting.splitArguments 0 t.chars = (t.chars, []) := by
  have := h.splitArguments EndsNumber.nil.digit
  rwa [Nesting.splitArguments, List.append_nil] at this

theorem spans_one {t : Term} {e : Expr α} (h : Denotes t e) :
    Nesting.spans t.chars = [t.chars] := by
  rw [Nesting.spans, h.splitArguments_chars]

/-- The space after the comma between two arguments keeps the comma from being part of a number. -/
theorem spans_two {t u : Term} {a b : Expr α} (ht : Denotes t a) (hu : Denotes u b) :
    Nesting.spans (t.chars ++ ',' :: ' ' :: u.chars) = [t.chars, ' ' :: u.chars] := by
  have hspace : Nesting.splitArguments 0 (' ' :: u.chars) = (' ' :: u.chars, []) := by
    rw [Nesting.splitArguments_cons (.inl (by decide)), Nesting.depthAfter, if_neg (by decide),
      if_neg (by decide), hu.splitArguments_chars]
  have hcomma : Nesting.splitArguments 0 (',' :: ' ' :: u.chars) = ([], [' ' :: u.chars]) := by
    rw [Nesting.splitArguments, if_pos ⟨rfl, rfl, by simp [Literal.isGroup]⟩, hspace]
  rw [Nesting.spans, ht.splitArguments (Literal.startsWithoutDigit_cons (by decide)), hcomma,
    List.append_nil]

end Denotes

end Term

/-! ## The expression of a text -/

namespace Formula

open Term (Denotes)

@[simp] theorem byteLength_nil : byteLength [] = 0 := rfl

@[simp] theorem byteLength_cons (c : Char) (cs : List Char) :
    byteLength (c :: cs) = c.utf8Size + byteLength cs := rfl

@[simp] theorem byteLength_append (cs ds : List Char) :
    byteLength (cs ++ ds) = byteLength cs + byteLength ds := by
  induction cs with
  | nil => simp
  | cons c cs ih => rw [List.cons_append, byteLength_cons, byteLength_cons, ih, Nat.add_assoc]

/-- What may follow an operand within its group: an operator. -/
def EndsOperand (rest : List Char) : Prop :=
  ∀ c ∈ rest.head?, ∃ op : Operator, c = op.symbol

theorem endsOperand_nil : EndsOperand [] := nofun

theorem endsOperand_cons (op : Operator) (rest : List Char) : EndsOperand (op.symbol :: rest) := by
  rintro c ⟨rfl⟩
  exact ⟨op, rfl⟩

theorem EndsOperand.endsNumber {rest : List Char} (h : EndsOperand rest) : EndsNumber rest := by
  cases rest with
  | nil => exact .nil
  | cons c rest =>
    obtain ⟨op, rfl⟩ := h c rfl
    have hdigit : op.symbol.isDigit = false := by cases op <;> rfl
    have hcomma : op.symbol ≠ ',' := by cases op <;> decide
    have hpoint : op.symbol ≠ '.' := by cases op <;> decide
    exact ⟨Literal.startsWithoutDigit_cons hdigit, Literal.startsWithoutGroup_cons hcomma,
      by simpa using hpoint⟩

theorem EndsOperand.isAlpha {rest : List Char} (h : EndsOperand rest) :
    ∀ c ∈ rest.head?, c.isAlpha = false := by
  intro c hc
  obtain ⟨op, rfl⟩ := h c hc
  cases op <;> rfl

/-- The parser takes the term at the start of a text as one operand. -/
def IsOperand (t : Term) (e : Expr α) : Prop :=
  ∀ {limit depth index : Nat} {rest : List Char}, depth + e.height ≤ limit → EndsOperand rest →
    OperandAt limit depth index (t.chars ++ rest) e (index + byteLength t.chars) rest

section steps

variable {limit depth start index : Nat}

theorem group_eq_operands (hdepth : depth ≤ limit) (cs : List Char) :
    group limit depth start cs = (operands limit depth start {} start cs : Except _ (Expr α)) := by
  rw [group, if_neg (by omega)]

/-- The last operand of a group. -/
theorem operands_last {acc : Accumulator α} {t : Term} {e r : Expr α} (h : IsOperand t e)
    (hdepth : depth + e.height ≤ limit) (hacc : acc.operand e index = .ok { left? := some r }) :
    operands limit depth start acc index t.chars = .ok r := by
  have hat : OperandAt limit depth index (t.chars ++ []) e _ [] := h hdepth endsOperand_nil
  have hstep : operands limit depth start acc index (t.chars ++ []) = _ := hat.operands
  rw [List.append_nil, hacc] at hstep
  rw [hstep]
  show operands limit depth start { left? := some r } _ [] = _
  rw [operands_nil]
  rfl

/-- A term by itself in a group. -/
theorem group_chars {t : Term} {e : Expr α} (h : IsOperand t e)
    (hdepth : depth + e.height ≤ limit) : group limit depth start t.chars = .ok e := by
  rw [group_eq_operands (by omega)]
  exact operands_last h hdepth rfl

/-- The length of a text between parentheses, after a name or by itself. -/
theorem byteLength_enclosed (name inside : List Char) :
    byteLength (name ++ ('(' :: inside ++ [')'])) =
      byteLength name + byteLength inside + 2 := by
  have hopen : '('.utf8Size = 1 := rfl
  have hclose : ')'.utf8Size = 1 := rfl
  simp only [List.cons_append, byteLength_cons, byteLength_append, byteLength_nil, hopen, hclose]
  omega

/-- A group between parentheses as an operand. -/
theorem operandAt_enclosed {inside : List Char} {e : Expr α} (hinside : Balanced inside)
    (hgroup : group limit (depth + 1) (index + 1) inside = .ok e) (rest : List Char) :
    OperandAt limit depth index ('(' :: inside ++ [')'] ++ rest) e
      (index + byteLength ('(' :: inside ++ [')'])) rest := by
  have heq : '(' :: inside ++ [')'] ++ rest = '(' :: (inside ++ ')' :: rest) := by simp
  have hlength := byteLength_enclosed [] inside
  rw [List.nil_append, byteLength_nil, Nat.zero_add] at hlength
  rw [heq, hlength]
  exact .group (hinside.splitClosing?_zero rest) hgroup

/-- A call as an operand. -/
theorem operandAt_called {f : Builtin} {inside : List Char} (es : List (Expr α)) {e : Expr α}
    (hinside : Balanced inside)
    (harguments : arguments limit (depth + 1) (index + byteLength f.letters + 1)
      (Nesting.spans inside) = .ok es)
    (he : Expr.accepted? f es = some e) (rest : List Char) :
    OperandAt limit depth index (f.letters ++ ('(' :: inside ++ [')']) ++ rest) e
      (index + byteLength (f.letters ++ ('(' :: inside ++ [')']))) rest := by
  have heq : f.letters ++ ('(' :: inside ++ [')']) ++ rest =
      f.letters ++ '(' :: (inside ++ ')' :: rest) := by simp
  have hlength : index + byteLength (f.letters ++ ('(' :: inside ++ [')'])) =
      index + byteLength f.letters + byteLength inside + 2 := by
    rw [byteLength_enclosed]
    omega
  have hcall := Builtin.called?_letters f (inside ++ ')' :: rest)
  obtain ⟨c, cs, hletters, hc⟩ := f.letters_eq_cons
  rw [heq, hlength]
  rw [hletters, List.cons_append] at hcall ⊢
  rw [← hletters]
  exact .call hc hcall rfl (hinside.splitClosing?_zero rest) harguments he

end steps

/-! ### One case for each kind of term -/

theorem isOperand_number {digits : List Char} {v : α} (hdigits : IsLiteral digits)
    (hv : Literal.value? digits = some v) : IsOperand (.number digits) (.const v) := by
  intro limit depth index rest _ hrest
  obtain ⟨c, cs, rfl, hc⟩ := hdigits.eq_cons
  exact .number hc (hdigits.append hrest.endsNumber) hv

theorem isOperand_letter {c : Char} (hc : c.isAlpha = true) :
    IsOperand (.letter c) (.param (String.singleton c) : Expr α) := by
  intro limit depth index rest _ hrest
  have hsize : byteLength [c] = 1 := utf8Size_of_isAlpha hc
  rw [Term.chars, hsize]
  exact .letter hc (Builtin.called?_eq_none hrest.isAlpha)

theorem isOperand_neg {t : Term} {e : Expr α} (h : Denotes t e) (ih : IsOperand t e) :
    IsOperand (.neg t) (.neg e) := by
  intro limit depth index rest hdepth _
  rw [Term.chars_neg]
  refine operandAt_enclosed (Term.balanced_inside_neg h.balanced) ?_ rest
  rw [Expr.height] at hdepth
  rw [group_eq_operands (by omega)]
  exact (operands_operator .minus t.chars).trans (operands_last ih (by omega) rfl)

theorem isOperand_binary {op : Operator} {t u : Term} {a b : Expr α} (ht : Denotes t a)
    (hu : Denotes u b) (iht : IsOperand t a) (ihu : IsOperand u b) :
    IsOperand (.binary op t u) (.binary op a b) := by
  intro limit depth index rest hdepth _
  rw [Term.chars_binary]
  refine operandAt_enclosed (Term.balanced_inside_binary ht.balanced hu.balanced) ?_ rest
  rw [Expr.height] at hdepth
  rw [group_eq_operands (by omega), (iht (by omega) (endsOperand_cons op _)).operands]
  show operands limit (depth + 1) (index + 1) { left? := some a } _ (op.symbol :: u.chars) = _
  rw [operands_operator]
  exact operands_last ihu (by omega) rfl

theorem isOperand_call₁ {f : Builtin} {t : Term} {x : Expr α} (hf : f.accepts 1 = true)
    (h : Denotes t x) (ih : IsOperand t x) : IsOperand (.call f [t]) (.call₁ f x) := by
  intro limit depth index rest hdepth _
  rw [Term.chars_call, Term.argumentChars_one]
  refine operandAt_called [x] h.balanced ?_ (if_pos hf) rest
  rw [Expr.height] at hdepth
  rw [h.spans_one, arguments, group_chars ih (by omega), arguments]
  rfl

theorem isOperand_call₂ {f : Builtin} {t u : Term} {x y : Expr α} (hf : f.accepts 2 = true)
    (ht : Denotes t x) (hu : Denotes u y) (iht : IsOperand t x) (ihu : IsOperand u y) :
    IsOperand (.call f [t, u]) (.call₂ f x y) := by
  intro limit depth index rest hdepth _
  rw [Term.chars_call, Term.argumentChars_two]
  have hinside := Term.balanced_arguments ht.balanced hu.balanced
  refine operandAt_called [x, y] hinside ?_ (if_pos hf) rest
  rw [Expr.height] at hdepth
  have hsecond (start : Nat) :
      group limit (depth + 1) start (' ' :: u.chars) = (.ok y : Except _ (Expr α)) := by
    rw [group_eq_operands (by omega), operands_blank (by decide)]
    exact operands_last ihu (by omega) rfl
  rw [ht.spans_two hu, arguments, group_chars iht (by omega), arguments, hsecond, arguments]
  rfl

/-- Every term is read back as the expression that it stands for. -/
theorem isOperand_of_denotes {t : Term} {e : Expr α} (h : Denotes t e) : IsOperand t e := by
  induction h with
  | number hdigits hv => exact isOperand_number hdigits hv
  | letter hc => exact isOperand_letter hc
  | neg h ih => exact isOperand_neg h ih
  | binary ht hu iht ihu => exact isOperand_binary ht hu iht ihu
  | call₁ hf h ih => exact isOperand_call₁ hf h ih
  | call₂ hf ht hu iht ihu => exact isOperand_call₂ hf ht hu iht ihu

/-- The parser reads the text of a term. -/
theorem parseChars_chars {t : Term} {e : Expr α} (h : Denotes t e) {maxDepth : Nat}
    (hheight : e.height ≤ maxDepth) : parseChars maxDepth t.chars = .ok e :=
  group_chars (isOperand_of_denotes h) (by omega)

/-- After a zero and a plus sign, the second operand of a sum is read. -/
theorem parseChars_zero_plus (maxDepth : Nat) (cs : List Char) :
    parseChars maxDepth ('0' :: '+' :: cs) = operands maxDepth 0 0
      { left? := some (.const (Numeral.ofDecimal 0 0) : Expr α), pending? := some .plus } 2 cs := by
  have hzero : IsOperand (.number ['0']) (.const (Numeral.ofDecimal 0 0) : Expr α) :=
    isOperand_number (Literal.isLiteral_of_digits (by decide) (by decide)) rfl
  have hat : OperandAt maxDepth 0 0 ('0' :: '+' :: cs) (.const (Numeral.ofDecimal 0 0) : Expr α) 1
      (Operator.plus.symbol :: cs) :=
    hzero (by simp [Expr.height]) (endsOperand_cons .plus cs)
  rw [parseChars, group_eq_operands (by omega), hat.operands]
  show operands maxDepth 0 0 { left? := some (.const (Numeral.ofDecimal 0 0)) } _
    (Operator.plus.symbol :: _) = _
  rw [operands_operator]
  rfl

/-- The parser reads the text of a term as the second operand of a sum. -/
theorem parseChars_wrapped {t : Term} {e : Expr α} (h : Denotes t e) {maxDepth : Nat}
    (hheight : 1 + e.height ≤ maxDepth) :
    parseChars maxDepth (['0', '+', '('] ++ t.chars ++ [')']) =
      .ok (.sum (.const (Numeral.ofDecimal 0 0)) e) := by
  have heq : ['0', '+', '('] ++ t.chars ++ [')'] =
      '0' :: '+' :: ('(' :: t.chars ++ [')'] ++ []) := by
    simp
  have hgroup (start : Nat) : group maxDepth (0 + 1) start t.chars = .ok e :=
    group_chars (isOperand_of_denotes h) (by omega)
  rw [heq, parseChars_zero_plus, (operandAt_enclosed h.balanced (hgroup _) []).operands]
  show operands maxDepth 0 0 { left? := some (.sum (.const (Numeral.ofDecimal 0 0)) e) } _ [] = _
  rw [operands_nil]
  rfl

end Formula

end SymbolicCalculus
