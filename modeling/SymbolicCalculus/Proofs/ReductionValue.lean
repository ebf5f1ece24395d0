import SymbolicCalculus.Proofs.CommonFactorValue
import SymbolicCalculus.Proofs.DivisionValue
import SymbolicCalculus.Proofs.Passes
import SymbolicCalculus.Proofs.Rewriting
import SymbolicCalculus.Proofs.RuleSoundness

/-!
# Reduction keeps the value

In exact arithmetic, an expression that is reduced by any number of passes of any depth has the
value of the original wherever the original has one: `Expr.reduce_value`. A pass is made of two
kinds of steps, a rule (`replacement?_refines`) and a common factor pulled out (`factored_refines`).
Each refines the node that it is applied to, and refinement passes through the nodes above it
(`reviseParts_refines`), through the levels of a pass and through the passes. All this holds of any
meaning in a field, provided that nested powers keep their values each time a rule multiplies their
exponents (`reduceFrom_refines_of_events`), which in exact arithmetic they always do.
-/

namespace SymbolicCalculus.Expr

open Exact (meaning)

variable {F : Type} [Field F] [CharZero F] {I : Interpretation Rat F} [I.IsFaithful]

/-! ## A common factor pulled out -/

/-- The quotients of two operands by a common factor that is pulled out of them. -/
theorem extract?_value {op : Operator} {a b g a' b' : Expr Rat} {x y : F}
    (hx : a.value? I = some x) (hy : b.value? I = some y)
    (h : extract? op a b = some (g, a', b')) :
    ∃ d u w, g.value? I = some d ∧ a'.value? I = some u ∧
      b'.value? I = some w ∧ x = u * d ∧ y = w * d := by
  obtain ⟨hfactor, ha', hb'⟩ := divideOut?_of_extract? h
  obtain ⟨d, hd⟩ := commonFactor?_hasValue ⟨x, hx⟩ ⟨y, hy⟩ hfactor
  obtain ⟨u, hu, hxu⟩ := divideOut?_value hx hd ha'
  obtain ⟨w, hw, hyw⟩ := divideOut?_value hy hd hb'
  exact ⟨d, u, w, hd, hu, hw, hxu, hyw⟩

theorem extract?_refines_quotient {a b g a' b' : Expr Rat}
    (h : extract? .divide a b = some (g, a', b')) :
    Refines I (quotient a b) (quotient a' b') := by
  intro v hv
  obtain ⟨x, y, hx, hy, hne, rfl⟩ := value?_quotient_iff.mp hv
  obtain ⟨d, u, w, -, hu, hw, rfl, rfl⟩ := extract?_value hx hy h
  obtain ⟨hw', hd'⟩ := mul_ne_zero_iff.mp hne
  exact value?_quotient_iff.mpr ⟨u, w, hu, hw, hw', (mul_div_mul_right u w hd').symm⟩

theorem extract?_refines_sum {a b g a' b' : Expr Rat}
    (h : extract? .plus a b = some (g, a', b')) :
    Refines I (sum a b) (product (sum a' b') g) := by
  intro v hv
  obtain ⟨x, y, hx, hy, rfl⟩ := value?_sum_iff.mp hv
  obtain ⟨d, u, w, hd, hu, hw, rfl, rfl⟩ := extract?_value hx hy h
  have hinner := value?_sum_iff.mpr ⟨u, w, hu, hw, rfl⟩
  exact value?_product_iff.mpr ⟨u + w, d, hinner, hd, add_mul u w d⟩

theorem extract?_refines_difference {a b g a' b' : Expr Rat}
    (h : extract? .minus a b = some (g, a', b')) :
    Refines I (difference a b) (product (difference a' b') g) := by
  intro v hv
  obtain ⟨x, y, hx, hy, rfl⟩ := value?_difference_iff.mp hv
  obtain ⟨d, u, w, hd, hu, hw, rfl, rfl⟩ := extract?_value hx hy h
  have hinner := value?_difference_iff.mpr ⟨u, w, hu, hw, rfl⟩
  exact value?_product_iff.mpr ⟨u - w, d, hinner, hd, sub_mul u w d⟩

/-- Pulling out a common factor keeps the value. -/
theorem factored_refines (e : Expr Rat) : Refines I e e.factored.expr := by
  unfold factored
  split
  · exact .refl _
  · exact .refl _
  · next op a b htimes hpower =>
    split
    · exact .refl _
    · next g a' b' h =>
      cases op with
      | plus => exact extract?_refines_sum h
      | minus => exact extract?_refines_difference h
      | times => exact absurd rfl htimes
      | divide => exact extract?_refines_quotient h
      | power => exact absurd rfl hpower
  · exact .refl _

/-! ## A pass -/

/-- Does an event keep the values of nested powers, if it is a rule that fired? -/
def KeepsNestedPowers (I : Interpretation Rat F) : Event Rat → Prop
  | .replaced rule result => Rule.KeepsNestedPowers I rule result
  | _ => True

/-- If what becomes of the parts refines them, what becomes of the node refines the node. -/
theorem reviseParts_refines {β : Type} {I : Interpretation Rat β} {P : Event Rat → Prop}
    {part : Expr Rat → Revision Rat}
    (hpart : ∀ e, (∀ event ∈ (part e).events, P event) → Refines I e (part e).expr) (e : Expr Rat)
    (hevents : ∀ event ∈ (e.reviseParts part).events, P event) :
    Refines I e (e.reviseParts part).expr := by
  cases e with
  | param p => exact .refl _
  | const k => exact .refl _
  | binary op a b =>
    obtain ⟨ha, hb⟩ := List.forall_mem_append.mp hevents
    exact (hpart a ha).binary op (hpart b hb)
  | neg a => exact (hpart a hevents).neg
  | call₀ f => exact .refl _
  | call₁ f x => exact (hpart x hevents).call₁ f
  | call₂ f x y =>
    obtain ⟨hx, hy⟩ := List.forall_mem_append.mp hevents
    exact (hpart x hx).call₂ f (hpart y hy)

theorem isPassInvariant_refines : IsPassInvariant fun e r =>
    (∀ event ∈ r.events, KeepsNestedPowers I event) → Refines I e r.expr where
  unchanged e _ := .refl e
  rule h hevents := replacement?_refines h (hevents _ (List.mem_singleton_self _))
  parts := reviseParts_refines
  factored _ _ := factored_refines _
  trans hr hs _ hevents := by
    obtain ⟨hfirst, hsecond⟩ := List.forall_mem_append.mp hevents
    exact (hr hfirst).trans (hs hsecond)

/-- A pass over so many levels keeps the value. -/
theorem refine_refines (levels : Nat) (e : Expr Rat)
    (hevents : ∀ event ∈ (e.refine levels).events, KeepsNestedPowers I event) :
    Refines I e (e.refine levels).expr :=
  isPassInvariant_refines.refine levels e hevents

/-! ## Passes to a fixed point -/

/-- All passes keep the value if each rule for nested powers that fires in one of them does. -/
theorem reduceFrom_refines_of_events (limits : Limits) (pass : Nat) (changed : Bool) (passes : Nat)
    (e : Expr Rat)
    (hevents : ∀ event ∈ (e.reduceFrom limits pass changed passes).events,
      KeepsNestedPowers I event) :
    Refines I e (e.reduceFrom limits pass changed passes).expr := by
  induction passes generalizing pass changed e with
  | zero => exact .refl e
  | succ passes ih =>
    unfold reduceFrom at hevents ⊢
    dsimp only at hevents ⊢
    split at hevents
    · next hsame =>
      rw [if_pos hsame]
      exact .refl e
    · next hsame =>
      rw [if_neg hsame]
      obtain ⟨hfirst, hrest⟩ := List.forall_mem_append.mp hevents
      have hstep := refine_refines (limits.maxDepth + 1) e hfirst
      exact hstep.trans (ih _ _ _ (List.forall_mem_cons.mp hrest).2)

/-! ## Exact arithmetic -/

section exact

variable {param : String → Option Rat} {call : Builtin → List Rat → Option Rat}

/-- Exponents of nested powers may be multiplied: an inner power of zero that has a value is zero or
one, and whatever the outer exponent may be there the product may be, too. -/
theorem zpow_mul_defined {x : Rat} {m n : Int} (hm : x ≠ 0 ∨ 0 ≤ m) (hn : x ^ m ≠ 0 ∨ 0 ≤ n) :
    x ≠ 0 ∨ 0 ≤ m * n := by
  rcases eq_or_ne x 0 with rfl | hx
  · right
    have hm : 0 ≤ m := by simpa using hm
    rcases hm.eq_or_lt with rfl | hpos
    · simp
    · have hn : 0 ≤ n := by simpa [zero_zpow m hpos.ne'] using hn
      exact mul_nonneg hm hn
  · exact Or.inl hx

/-- In exact arithmetic exponents are integers, and nested powers always keep their value. -/
theorem keepsNestedPowers_exact (event : Event Rat) :
    KeepsNestedPowers (meaning param call) event := by
  cases event with
  | replaced rule result =>
    rintro - a b c rfl v hv
    obtain ⟨x, y, hx, hy, hv⟩ := value?_binary_eq_some.mp hv
    obtain ⟨z, m, hz, hm, hx⟩ := value?_binary_eq_some.mp hx
    obtain ⟨n, rfl, hn, rfl⟩ := Exact.result?_power.mp hv
    obtain ⟨m, rfl, hm', rfl⟩ := Exact.result?_power.mp hx
    have hexp := value?_product_iff.mpr ⟨(m : Rat), n, hm, hy, (Int.cast_mul m n).symm⟩
    exact value?_binary_eq_some.mpr ⟨z, _, hz, hexp,
      Exact.result?_power.mpr ⟨m * n, rfl, zpow_mul_defined hm' hn, zpow_mul z m n⟩⟩
  | _ => trivial

theorem reduceOnce_refines (limits : Limits) (e : Expr Rat) :
    Refines (meaning param call) e (e.reduceOnce limits).expr :=
  refine_refines (limits.maxDepth + 1) e fun event _ => keepsNestedPowers_exact event

theorem reduceFrom_refines (limits : Limits) (pass : Nat) (changed : Bool) (passes : Nat)
    (e : Expr Rat) :
    Refines (meaning param call) e (e.reduceFrom limits pass changed passes).expr :=
  reduceFrom_refines_of_events limits pass changed passes e fun event _ =>
    keepsNestedPowers_exact event

end exact

/-- **Reduction keeps the value.** For any values of the parameters, any meaning of the builtin
functions and any limits: where an expression has a value in exact arithmetic, so have one pass over
it and all passes to a fixed point, and it is the same value. -/
theorem reduce_value (param : String → Option Rat) (call : Builtin → List Rat → Option Rat)
    (limits : Limits) (e : Expr Rat) {v : Rat} (h : e.value? (.arithmetic param call) = some v) :
    (e.reduceOnce limits).expr.value? (.arithmetic param call) = some v ∧
      (e.reduce limits).expr.value? (.arithmetic param call) = some v :=
  ⟨reduceOnce_refines limits e v h, reduceFrom_refines limits 0 false limits.maxPasses e v h⟩

/-- `3*x^2 + sin(x)*x` at two, where the sine of two is taken to be five. -/
theorem reduce_value_of_sum :
    let e : Expr Rat := .sum (.product (.const 3) (.power (.param "x") (.const 2)))
      (.product (.call₁ .sine (.param "x")) (.param "x"))
    let I : Interpretation Rat Rat := .arithmetic (fun _ => some 2) (fun _ _ => some 5)
    e.value? I = some 22 ∧ (e.reduceOnce {}).expr.value? I = some 22 ∧
      (e.reduce {}).expr.value? I = some 22 := by
  intro e I
  have h : e.value? I = some 22 := by decide +kernel
  exact ⟨h, reduce_value (fun _ => some 2) (fun _ _ => some 5) {} e h⟩

end SymbolicCalculus.Expr
