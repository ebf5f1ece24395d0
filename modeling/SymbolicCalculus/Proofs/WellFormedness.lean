import Mathlib.Data.Set.Basic
import SymbolicCalculus.Proofs.Differentiability

/-!
# Well-formed expressions

An expression over a set of parameters mentions none but these, and its calls have as many arguments
as the functions take (`Expr.IsWellFormed`). This is decided by the parts of a node, and so
reductions and expansions keep it. A derivative keeps it since each placeholder of a template is
replaced by an argument (`IsWellFormed.derivative`). An expression over one parameter has a value
wherever that parameter has one, and the value is not that of a call without a meaning
(`IsWellFormed.evaluate`).
-/

namespace SymbolicCalculus

/-- The same functions, with `u` for what a call without a meaning evaluates to. -/
abbrev Elementary.withUndefined {α : Type} (E : Elementary α) (u : α) : Elementary α :=
  { E with undefined := u }

namespace Expr

variable {α : Type} {S : Set String} {a b e w x y : Expr α} {f : Builtin}

/-- The calls have as many arguments as the functions take, and every parameter is in the set. -/
def IsWellFormed (S : Set String) (e : Expr α) : Prop :=
  e.CallsAccepted ∧ ∀ p, e.dependsOn p = true → p ∈ S

/-! ## Nodes -/

theorem forall_dependsOn_or :
    (∀ p, (a.dependsOn p || b.dependsOn p) = true → p ∈ S) ↔
      (∀ p, a.dependsOn p = true → p ∈ S) ∧ ∀ p, b.dependsOn p = true → p ∈ S := by
  simp only [Bool.or_eq_true, or_imp, forall_and]

theorem isWellFormed_param {p : String} : (param p : Expr α).IsWellFormed S ↔ p ∈ S := by
  constructor
  · rintro ⟨-, hp⟩
    exact hp p (beq_self_eq_true p)
  · intro hp
    refine ⟨trivial, fun q hq => ?_⟩
    exact eq_of_beq hq ▸ hp

theorem isWellFormed_const (k : α) : (const k).IsWellFormed S :=
  ⟨trivial, nofun⟩

theorem isWellFormed_binary {op : Operator} :
    (binary op a b).IsWellFormed S ↔ a.IsWellFormed S ∧ b.IsWellFormed S :=
  (and_congr_right' forall_dependsOn_or).trans and_and_and_comm

theorem isWellFormed_neg : (neg a).IsWellFormed S ↔ a.IsWellFormed S :=
  Iff.rfl

theorem isWellFormed_call₁ :
    (call₁ f x).IsWellFormed S ↔ f.accepts 1 = true ∧ x.IsWellFormed S :=
  and_assoc

theorem isWellFormed_call₂ :
    (call₂ f x y).IsWellFormed S ↔
      f.accepts 2 = true ∧ x.IsWellFormed S ∧ y.IsWellFormed S :=
  and_assoc.trans (and_congr_right'
    ((and_congr_right' forall_dependsOn_or).trans and_and_and_comm))

theorem isLocal_isWellFormed (S : Set String) :
    IsLocal (IsWellFormed (α := α) S) (IsWellFormed S) where
  const := isWellFormed_const
  binary _ := isWellFormed_binary
  power := isWellFormed_binary
  neg := isWellFormed_neg
  call₁ h := by
    obtain ⟨hf, hx⟩ := isWellFormed_call₁.mp h
    exact ⟨hx, fun hx' => isWellFormed_call₁.mpr ⟨hf, hx'⟩⟩
  call₂ h := by
    obtain ⟨hf, hx, hy⟩ := isWellFormed_call₂.mp h
    exact ⟨hx, hy, fun hx' hy' => isWellFormed_call₂.mpr ⟨hf, hx', hy'⟩⟩

/-! ## Derivatives -/

theorem IsWellFormed.substitute (he : e.IsWellFormed S) (hw : w.IsWellFormed S) (q : String) :
    (e.substitute q w).IsWellFormed S := by
  induction e with
  | param p =>
    unfold Expr.substitute
    split
    · exact hw
    · exact he
  | const k => exact he
  | binary op a b iha ihb =>
    obtain ⟨ha, hb⟩ := isWellFormed_binary.mp he
    exact isWellFormed_binary.mpr ⟨iha ha, ihb hb⟩
  | neg a ih => exact ih he
  | call₀ f => exact he
  | call₁ f x ih =>
    obtain ⟨hf, hx⟩ := isWellFormed_call₁.mp he
    exact isWellFormed_call₁.mpr ⟨hf, ih hx⟩
  | call₂ f x y ihx ihy =>
    obtain ⟨hf, hx, hy⟩ := isWellFormed_call₂.mp he
    exact isWellFormed_call₂.mpr ⟨hf, ihx hx, ihy hy⟩

section derivative

variable [NatCast α] {d : Expr α} {p : String}

/-- The template of a function at its argument mentions what the argument mentions. -/
theorem isWellFormed_outerDerivative (f : Builtin) (hx : x.IsWellFormed S) :
    (f.outerDerivative [x]).IsWellFormed S := by
  have hcall (g : Builtin) : (call₁ g x).IsWellFormed S :=
    isWellFormed_call₁.mpr ⟨by cases g <;> rfl, hx⟩
  have hten : (call₁ .log (nat 10 : Expr α)).IsWellFormed S :=
    isWellFormed_call₁.mpr ⟨rfl, isWellFormed_const _⟩
  cases f with
  | log =>
    rw [Builtin.outerDerivative_log]
    exact isWellFormed_binary.mpr ⟨isWellFormed_const _, hx⟩
  | log10 =>
    rw [Builtin.outerDerivative_log10]
    exact isWellFormed_binary.mpr
      ⟨isWellFormed_const _, isWellFormed_binary.mpr ⟨hx, hten⟩⟩
  | sine =>
    rw [Builtin.outerDerivative_sine]
    exact hcall .cosine
  | cosine =>
    rw [Builtin.outerDerivative_cosine]
    exact hcall .sine
  | tangent =>
    rw [Builtin.outerDerivative_tangent]
    exact isWellFormed_binary.mpr
      ⟨isWellFormed_const _, isWellFormed_binary.mpr ⟨hcall .cosine, isWellFormed_const _⟩⟩

theorem isWellFormed_outerDerivative_base (hf : f.accepts 2 = true) (hx : x.IsWellFormed S)
    (hy : y.IsWellFormed S) : (f.outerDerivative [x, y]).IsWellFormed S := by
  obtain rfl : f = .log := by cases f <;> first | rfl | contradiction
  have hcall : (call₁ .log y).IsWellFormed S := isWellFormed_call₁.mpr ⟨rfl, hy⟩
  rw [Builtin.outerDerivative_log_base_eq]
  exact isWellFormed_binary.mpr
    ⟨isWellFormed_const _, isWellFormed_binary.mpr ⟨hx.substitute hy _, hcall⟩⟩

/-- **A derivative is well-formed.** -/
theorem IsWellFormed.derivative (he : e.IsWellFormed S) (h : e.derivative p = .ok d) :
    d.IsWellFormed S := by
  induction e generalizing d with
  | param q =>
    obtain rfl := Except.ok.inj h
    split <;> exact isWellFormed_const _
  | const k =>
    obtain rfl := Except.ok.inj h
    exact isWellFormed_const _
  | binary op a b iha ihb =>
    obtain ⟨ha, hb⟩ := isWellFormed_binary.mp he
    cases op with
    | plus =>
      obtain ⟨a', ha', b', hb', rfl⟩ := derivative_sum_eq_ok.mp h
      exact isWellFormed_binary.mpr ⟨iha ha ha', ihb hb hb'⟩
    | minus =>
      obtain ⟨a', ha', b', hb', rfl⟩ := derivative_difference_eq_ok.mp h
      exact isWellFormed_binary.mpr ⟨iha ha ha', ihb hb hb'⟩
    | times =>
      obtain ⟨a', ha', b', hb', rfl⟩ := derivative_product_eq_ok.mp h
      have hleft : (product a' b).IsWellFormed S := isWellFormed_binary.mpr ⟨iha ha ha', hb⟩
      have hright : (product a b').IsWellFormed S := isWellFormed_binary.mpr ⟨ha, ihb hb hb'⟩
      exact isWellFormed_binary.mpr ⟨hleft, hright⟩
    | divide =>
      obtain ⟨a', ha', b', hb', rfl⟩ := derivative_quotient_eq_ok.mp h
      have hleft : (product a' b).IsWellFormed S := isWellFormed_binary.mpr ⟨iha ha ha', hb⟩
      have hright : (product a b').IsWellFormed S := isWellFormed_binary.mpr ⟨ha, ihb hb hb'⟩
      have hsquare : (power b (nat 2)).IsWellFormed S :=
        isWellFormed_binary.mpr ⟨hb, isWellFormed_const _⟩
      exact isWellFormed_binary.mpr ⟨isWellFormed_binary.mpr ⟨hleft, hright⟩, hsquare⟩
    | power =>
      obtain ⟨-, a', ha', rfl⟩ := derivative_power_eq_ok.mp h
      have hless : (difference b (nat 1)).IsWellFormed S :=
        isWellFormed_binary.mpr ⟨hb, isWellFormed_const _⟩
      have hpower : (power a (difference b (nat 1))).IsWellFormed S :=
        isWellFormed_binary.mpr ⟨ha, hless⟩
      exact isWellFormed_binary.mpr ⟨isWellFormed_binary.mpr ⟨hb, hpower⟩, iha ha ha'⟩
  | neg a ih =>
    obtain ⟨a', ha', rfl⟩ := derivative_neg_eq_ok.mp h
    exact isWellFormed_neg.mpr (ih (isWellFormed_neg.mp he) ha')
  | call₀ f => contradiction
  | call₁ f x ih =>
    obtain ⟨-, hx⟩ := isWellFormed_call₁.mp he
    obtain ⟨x', hx', rfl⟩ := derivative_call₁_eq_ok.mp h
    exact isWellFormed_binary.mpr ⟨isWellFormed_outerDerivative f hx, ih hx hx'⟩
  | call₂ f x base ih _ =>
    obtain ⟨hf, hx, hbase⟩ := isWellFormed_call₂.mp he
    obtain ⟨-, x', hx', rfl⟩ := derivative_call₂_eq_ok.mp h
    exact isWellFormed_binary.mpr ⟨isWellFormed_outerDerivative_base hf hx hbase, ih hx hx'⟩

end derivative

/-! ## Values -/

section values

variable [Arithmetic α] [E : Elementary α]

/-- What a call without a meaning evaluates to does not matter for an accepted call. -/
theorem evaluate_withUndefined_one (hf : f.accepts 1 = true) (u v : α) :
    @Builtin.evaluate α _ (E.withUndefined u) f [v] = f.evaluate [v] := by
  cases f <;> rfl

theorem evaluate_withUndefined_two (hf : f.accepts 2 = true) (u v w : α) :
    @Builtin.evaluate α _ (E.withUndefined u) f [v, w] = f.evaluate [v, w] := by
  cases f <;> first | rfl | contradiction

/-- **A well-formed expression has a value**, and not by a call without a meaning. -/
theorem IsWellFormed.evaluate {p : String} (he : e.IsWellFormed {p}) (v : α) :
    ∃ w, ∀ u, @Expr.evaluate α _ (E.withUndefined u) p v e = .ok w := by
  induction e with
  | param q =>
    obtain rfl : q = p := Set.mem_singleton_iff.mp (isWellFormed_param.mp he)
    exact ⟨v, fun u => if_pos rfl⟩
  | const k => exact ⟨k, fun u => rfl⟩
  | binary op a b iha ihb =>
    obtain ⟨ha, hb⟩ := isWellFormed_binary.mp he
    obtain ⟨x, hx⟩ := iha ha
    obtain ⟨y, hy⟩ := ihb hb
    exact ⟨op.apply x y, fun u => bind_eq_ok.mpr ⟨x, hx u, bind_eq_ok.mpr ⟨y, hy u, rfl⟩⟩⟩
  | neg a ih =>
    obtain ⟨x, hx⟩ := ih he
    exact ⟨-x, fun u => bind_eq_ok.mpr ⟨x, hx u, rfl⟩⟩
  | call₀ f =>
    have hf : f.accepts 0 = true := he.1
    cases f <;> contradiction
  | call₁ f x ih =>
    obtain ⟨hf, hx⟩ := isWellFormed_call₁.mp he
    obtain ⟨v, hv⟩ := ih hx
    refine ⟨f.evaluate [v], fun u => bind_eq_ok.mpr ⟨v, hv u, ?_⟩⟩
    exact congrArg Except.ok (evaluate_withUndefined_one hf u v)
  | call₂ f x y ihx ihy =>
    obtain ⟨hf, hx, hy⟩ := isWellFormed_call₂.mp he
    obtain ⟨v, hv⟩ := ihx hx
    obtain ⟨w, hw⟩ := ihy hy
    refine ⟨f.evaluate [v, w],
      fun u => bind_eq_ok.mpr ⟨v, hv u, bind_eq_ok.mpr ⟨w, hw u, ?_⟩⟩⟩
    exact congrArg Except.ok (evaluate_withUndefined_two hf u v w)

end values

end Expr

end SymbolicCalculus
