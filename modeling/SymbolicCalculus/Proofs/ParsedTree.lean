import SymbolicCalculus.Proofs.ParserSteps

/-!
# What holds of everything that is parsed

A property of expressions that passes from the parts of a node to the node, and holds of whatever
leaf can stand in a text, holds of every expression that the parser gives (`IsClosed.of_parse`).
The invariant of a run is that the property holds of the operand on the left.
-/

namespace SymbolicCalculus.Formula

variable {α : Type}

/-- The property holds of the operand that was read. -/
def HoldsOfLeft (P : Expr α → Prop) (acc : Accumulator α) : Prop :=
  ∀ a ∈ acc.left?, P a

section steps

variable {P : Expr α → Prop} {acc acc' : Accumulator α}

theorem holdsOfLeft_start : HoldsOfLeft P {} := by
  rintro a ⟨⟩

theorem HoldsOfLeft.of_operator {op : Operator} {index : Nat} (hacc : HoldsOfLeft P acc)
    (h : acc.operator op index = .ok acc') : HoldsOfLeft P acc' := by
  unfold Accumulator.operator at h
  split at h
  · split at h
    · obtain rfl := Except.ok.inj h
      exact hacc
    · obtain rfl := Except.ok.inj h
      exact hacc
    · contradiction
  · obtain rfl := Except.ok.inj h
    exact hacc

theorem HoldsOfLeft.of_finish {e : Expr α} {start stop : Nat} (hacc : HoldsOfLeft P acc)
    (h : acc.finish start stop = .ok e) : P e := by
  unfold Accumulator.finish at h
  split at h
  · contradiction
  · split at h
    · next a ha =>
      obtain rfl := Except.ok.inj h
      exact hacc a ha
    · contradiction

end steps

/-- A call that is read has one argument or two, as the function accepts. -/
theorem accepted?_cases {f : Builtin} {arguments : List (Expr α)} {e : Expr α}
    (h : Expr.accepted? f arguments = some e) :
    (∃ x, arguments = [x] ∧ f.accepts 1 = true ∧ e = .call₁ f x) ∨
      ∃ x y, arguments = [x, y] ∧ f.accepts 2 = true ∧ e = .call₂ f x y := by
  unfold Expr.accepted? at h
  split at h
  · next hf =>
    match arguments with
    | [] => cases f <;> contradiction
    | [x] => exact .inl ⟨x, rfl, hf, (Option.some.inj h).symm⟩
    | [x, y] => exact .inr ⟨x, y, rfl, hf, (Option.some.inj h).symm⟩
    | _ :: _ :: _ :: _ => contradiction
  · contradiction

variable [Numeral α]

/-- A property of expressions that the parser never leaves: it holds of the leaves that are read
from a text, and of every node over parts that it holds of. -/
structure IsClosed (P : Expr α → Prop) : Prop where
  param : ∀ c : Char, c.isAlpha = true → P (.param (String.singleton c))
  const : ∀ text v, Literal.value? text = some v → P (.const v)
  neg : ∀ a, P a → P (.neg a)
  binary : ∀ op a b, P a → P b → P (.binary op a b)
  call : ∀ f arguments e, Expr.accepted? f arguments = some e → (∀ x ∈ arguments, P x) → P e

namespace IsClosed

variable {P : Expr α → Prop} {limit depth start index : Nat} {acc acc' : Accumulator α}

theorem negated (hP : IsClosed P) (n : Nat) {e : Expr α} (he : P e) :
    P (Accumulator.negated n e) := by
  induction n generalizing e with
  | zero => exact he
  | succ n ih => exact ih (hP.neg e he)

theorem of_operand (hP : IsClosed P) {e : Expr α} (hacc : HoldsOfLeft P acc) (he : P e)
    (h : acc.operand e index = .ok acc') : HoldsOfLeft P acc' := by
  have hneg := hP.negated acc.negations he
  unfold Accumulator.operand at h
  dsimp only at h
  split at h
  · obtain rfl := Except.ok.inj h
    rintro a ⟨rfl⟩
    exact hneg
  · next left op hleft hop =>
    obtain rfl := Except.ok.inj h
    rintro a ⟨rfl⟩
    exact hP.binary op left _ (hacc left hleft) hneg
  · contradiction

/-- Each argument of a call is a group of its own. -/
theorem of_arguments {spans : List (List Char)} {es : List (Expr α)}
    (hgroup : ∀ span ∈ spans, ∀ {start e}, group limit depth start span = .ok e → P e)
    (h : arguments limit depth start spans = .ok es) : ∀ e ∈ es, P e := by
  induction spans generalizing start es with
  | nil =>
    rw [arguments] at h
    obtain rfl := Except.ok.inj h
    exact List.forall_mem_nil _
  | cons span others ih =>
    obtain ⟨hspan, hothers⟩ := List.forall_mem_cons.mp hgroup
    rw [arguments] at h
    obtain ⟨e, he, h⟩ := bind_eq_ok.mp h
    obtain ⟨es', hes', h⟩ := bind_eq_ok.mp h
    obtain rfl := Except.ok.inj h
    exact List.forall_mem_cons.mpr ⟨hspan he, ih hothers hes'⟩

/-- The property holds of an operand if it holds of the shorter groups within it. -/
theorem of_operandAt (hP : IsClosed P) {cs after : List Char} {e : Expr α} {index' : Nat}
    (ih : ∀ inside : List Char, inside.length < cs.length →
      ∀ {depth start e}, group limit depth start inside = .ok e → P e)
    (h : OperandAt limit depth index cs e index' after) : P e := by
  cases h with
  | group hsplit hgroup =>
    have hlength := Nesting.length_of_splitClosing? hsplit
    refine ih _ ?_ hgroup
    rw [List.length_cons]
    omega
  | letter hc _ => exact hP.param _ hc
  | @call c rest afterName inside _ f parenthesis es _ _ hcall _ hsplit hes he =>
    have hlength := length_of_called_group hcall hsplit
    refine hP.call f es e he (of_arguments (fun span hspan => ih span ?_) hes)
    have hextent := Nesting.extent_spans inside
    have := Nesting.length_lt_extent hspan
    omega
  | number _ _ hv => exact hP.const _ _ hv

theorem of_operands (hP : IsClosed P) (cs : List Char) {r : Expr α} (hacc : HoldsOfLeft P acc)
    (h : operands limit depth start acc index cs = .ok r) : P r := by
  -- The induction is on the length, since a group within an operand is no part of the list.
  induction hn : cs.length using Nat.strong_induction_on
    generalizing cs depth start index acc r with
  | h n ih =>
    subst hn
    have hgroup (inside : List Char) (hlength : inside.length < cs.length) {depth start e}
        (h : group limit depth start inside = .ok e) : P e := by
      rw [group] at h
      split at h
      · contradiction
      · exact ih _ hlength inside holdsOfLeft_start h rfl
    obtain ⟨-, hfinish⟩ | ⟨c, rest, rfl, -, hrest⟩ | ⟨op, rest, acc', rfl, hacc', hrest⟩ |
      ⟨e, index', after, acc', hat, hacc', hrest⟩ := operands_eq_ok h
    · exact hacc.of_finish hfinish
    · exact ih _ (Nat.lt_succ_self _) rest hacc hrest rfl
    · exact ih _ (Nat.lt_succ_self _) rest (hacc.of_operator hacc') hrest rfl
    · have he := hP.of_operandAt hgroup hat
      exact ih _ hat.length_lt after (hP.of_operand hacc he hacc') hrest rfl

/-- **The parser never leaves the property.** -/
theorem of_parse (hP : IsClosed P) {source : String} {e : Expr α}
    (h : parse limit source = .ok e) : P e := by
  rw [parse, parseChars, group, if_neg (by omega)] at h
  exact hP.of_operands _ holdsOfLeft_start h

end IsClosed

end SymbolicCalculus.Formula
