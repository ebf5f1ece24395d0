import Mathlib.Algebra.Group.Hom.Defs
import SymbolicCalculus.Expansion
import SymbolicCalculus.Proofs.DifferentialCalculus

/-!
# Expansion keeps the value in both directions

In a field, with any partial functions for powers and calls, an expression that is multiplied out
has a value exactly where the original has one, and the same one: `Expr.expand_value`. Distributing
a product writes one operand twice and drops none, and a divisor only moves between a quotient and
the product that the quotient is an operand of, so neither direction loses a value
(`distribute?_value`).
-/

namespace SymbolicCalculus

variable {α F : Type} [Mul α] [Field F]

/-- Values in a field. A quotient by zero has none, powers and calls are any partial functions, and
the constants stand for numbers that multiply as they do. -/
noncomputable def Interpretation.field (param : String → Option F) (const : α →ₙ* F)
    (power : F → F → Option F) (call : Builtin → List F → Option F) : Interpretation α F where
  param := param
  const := const
  neg := (-·)
  operate
    | .plus, x, y => some (x + y)
    | .minus, x, y => some (x - y)
    | .times, x, y => some (x * y)
    | .divide, x, y => Calculus.divide x y
    | .power, x, y => power x y
  call := call

namespace Expr

open Interpretation (field)

variable {param : String → Option F} {const : α →ₙ* F} {power : F → F → Option F}
  {call : Builtin → List F → Option F} {a b c e r : Expr α}

/-! ## Values of nodes -/

theorem value?_binary {β γ : Type} (I : Interpretation β γ) (op : Operator) (a b : Expr β) :
    (binary op a b).value? I =
      (a.value? I).bind fun x => (b.value? I).bind fun y => I.operate op x y :=
  rfl

theorem field_operate_times (x y : F) :
    (field param const power call).operate .times x y = some (x * y) :=
  rfl

theorem field_operate_divide (x y : F) :
    (field param const power call).operate .divide x y = Calculus.divide x y :=
  rfl

theorem field_value_const (k : α) :
    (Expr.const k).value? (field param const power call) = some (const k) :=
  rfl

/-! ## Rules for distribution -/

/-- A product with a sum or a difference on its left, given that multiplication distributes over
what the operator computes. -/
theorem field_value_distribute_left {op : Operator} {f : F → F → F}
    (hop : ∀ x y, (field param const power call).operate op x y = some (f x y))
    (hf : ∀ x y z, f x y * z = f (x * z) (y * z)) :
    (binary op (product a c) (product b c)).value? (field param const power call) =
      (product (binary op a b) c).value? (field param const power call) := by
  simp only [value?_binary, field_operate_times, hop]
  cases a.value? (field param const power call) with
  | none => rfl
  | some x =>
    cases b.value? (field param const power call) with
    | none => cases c.value? (field param const power call) <;> rfl
    | some y =>
      cases c.value? (field param const power call) with
      | none => rfl
      | some z => exact congrArg some (hf x y z).symm

/-- A product with a sum or a difference on its right. -/
theorem field_value_distribute_right {op : Operator} {f : F → F → F}
    (hop : ∀ x y, (field param const power call).operate op x y = some (f x y))
    (hf : ∀ x y z, z * f x y = f (z * x) (z * y)) :
    (binary op (product c a) (product c b)).value? (field param const power call) =
      (product c (binary op a b)).value? (field param const power call) := by
  simp only [value?_binary, field_operate_times, hop]
  cases c.value? (field param const power call) with
  | none => rfl
  | some z =>
    cases a.value? (field param const power call) with
    | none => rfl
    | some x =>
      cases b.value? (field param const power call) with
      | none => rfl
      | some y => exact congrArg some (hf x y z).symm

/-- A factor has the same value in the numerator of a quotient and in front of it. -/
theorem field_value_numerator :
    (quotient (product c a) b).value? (field param const power call) =
      (product c (quotient a b)).value? (field param const power call) := by
  simp only [value?_binary, field_operate_times, field_operate_divide]
  cases c.value? (field param const power call) with
  | none => rfl
  | some z =>
    cases a.value? (field param const power call) with
    | none => rfl
    | some x =>
      cases b.value? (field param const power call) with
      | none => rfl
      | some y =>
        simp only [Option.bind_some, Calculus.divide]
        split
        · rfl
        · rw [Option.bind_some, mul_div_assoc]

theorem field_value_product_comm :
    (product a b).value? (field param const power call) =
      (product b a).value? (field param const power call) := by
  simp only [value?_binary, field_operate_times]
  cases a.value? (field param const power call) with
  | none => cases b.value? (field param const power call) <;> rfl
  | some x =>
    cases b.value? (field param const power call) with
    | none => rfl
    | some y => exact congrArg some (mul_comm x y)

/-- Two coefficients are merged into one that stands for their product. -/
theorem field_value_merge (k l : α) (u : Expr α) :
    (product (Expr.const (k * l)) u).value? (field param const power call) =
      (product (Expr.const k) (product (Expr.const l) u)).value?
        (field param const power call) := by
  simp only [value?_binary, field_operate_times, field_value_const, Option.bind_some, map_mul]
  cases u.value? (field param const power call) with
  | none => rfl
  | some x => exact congrArg some (mul_assoc (const k) (const l) x)

theorem field_value_scaleProduct? {k : α} (h : scaleProduct? k e = some r) :
    r.value? (field param const power call) =
      (product (Expr.const k) e).value? (field param const power call) := by
  unfold scaleProduct? at h
  split at h
  · next l u =>
    obtain rfl := Option.some.inj h
    exact field_value_merge k l u
  · next u l _ =>
    obtain rfl := Option.some.inj h
    rw [field_value_merge, value?_binary, field_value_product_comm, ← value?_binary]
  · contradiction

theorem field_value_mergeCoefficients? (h : mergeCoefficients? a b = some r) :
    r.value? (field param const power call) =
      (product a b).value? (field param const power call) := by
  unfold mergeCoefficients? at h
  split at h
  · contradiction
  · exact field_value_scaleProduct? h
  · rw [field_value_scaleProduct? h, field_value_product_comm]
  · contradiction

/-- **A distributed product has the value of the product**, and has one exactly where that has. -/
theorem distribute?_value (h : distribute? a b = some r) :
    r.value? (field param const power call) =
      (product a b).value? (field param const power call) := by
  unfold distribute? at h
  split at h
  · obtain rfl := Option.some.inj h
    exact field_value_distribute_left (fun _ _ => rfl) add_mul
  · obtain rfl := Option.some.inj h
    exact field_value_distribute_left (fun _ _ => rfl) sub_mul
  · obtain rfl := Option.some.inj h
    exact field_value_distribute_right (fun _ _ => rfl) fun x y z => mul_add z x y
  · obtain rfl := Option.some.inj h
    exact field_value_distribute_right (fun _ _ => rfl) fun x y z => mul_sub z x y
  · obtain rfl := Option.some.inj h
    exact field_value_numerator
  · obtain rfl := Option.some.inj h
    rw [field_value_numerator, field_value_product_comm]
  · exact field_value_mergeCoefficients? h

/-! ## Passes -/

/-- One pass keeps the value of every node, and whether it has one. -/
theorem expandOnce_value (e : Expr α) :
    e.expandOnce.expr.value? (field param const power call) =
      e.value? (field param const power call) := by
  induction e with
  | param p => rfl
  | const k => rfl
  | binary op a b iha ihb =>
    rw [expandOnce]
    split
    · next r hr =>
      split at hr
      · next hop =>
        subst hop
        exact distribute?_value hr
      · contradiction
    · show (binary op _ _).value? _ = _
      rw [value?_binary, value?_binary, iha, ihb]
  | neg a ih =>
    show (a.expandOnce.expr.value? _).map _ = (a.value? _).map _
    rw [ih]
  | call₀ f => rfl
  | call₁ f x ih =>
    show (x.expandOnce.expr.value? _).bind _ = (x.value? _).bind _
    rw [ih]
  | call₂ f x y ihx ihy =>
    show ((x.expandOnce.expr.value? _).bind fun u => (y.expandOnce.expr.value? _).bind _) =
      (x.value? _).bind fun u => (y.value? _).bind _
    rw [ihx, ihy]

theorem expandFrom_value (limits : Limits) (changed : Bool) (passes : Nat) (e : Expr α) :
    (e.expandFrom limits changed passes).expr.value? (field param const power call) =
      e.value? (field param const power call) := by
  induction passes generalizing changed e with
  | zero => rfl
  | succ passes ih =>
    rw [expandFrom]
    dsimp only
    split
    · exact (ih true e.expandOnce.expr).trans (expandOnce_value e)
    · rfl

/-- **Expansion keeps the value, in both directions.** In a field, for any values of the parameters,
any partial functions for powers and calls, and any limits: one pass over an expression and all
passes have a value exactly where the expression has one, and it is the same value. -/
theorem expand_value (param : String → Option F) (const : α →ₙ* F) (power : F → F → Option F)
    (call : Builtin → List F → Option F) (limits : Limits) (e : Expr α) :
    e.expandOnce.expr.value? (.field param const power call) =
        e.value? (.field param const power call) ∧
      (e.expand limits).expr.value? (.field param const power call) =
        e.value? (.field param const power call) :=
  ⟨expandOnce_value e, expandFrom_value limits false limits.maxPasses e⟩

end Expr

end SymbolicCalculus
