import SymbolicCalculus.Event
import SymbolicCalculus.Proofs.DerivativeValue
import SymbolicCalculus.Proofs.DoubleCounts
import SymbolicCalculus.Proofs.Rewriting
import SymbolicCalculus.Proofs.SignedText

/-!
# Finite constants

An expression over doubles whose constants are all finite, and what becomes of it under a rule and
a derivative. Folding and dividing constants keeps to finite results. The one rule that does not is
the one that merges the coefficients of a product, whose product may be infinite
(`isFinite_of_replacement?`). Derivatives make no constants but small ones
(`isFinite_of_derivative`).
-/

namespace SymbolicCalculus

namespace Expr

/-- Is every constant finite? -/
def IsFinite (e : Expr Binary64) : Prop :=
  ∀ k ∈ e.constants, k.isFinite = true

instance (e : Expr Binary64) : Decidable e.IsFinite :=
  inferInstanceAs (Decidable (∀ k ∈ e.constants, k.isFinite = true))

/-! ## Parts -/

section parts

variable {a b : Expr Binary64}

@[simp] theorem isFinite_param (p : String) : (param p : Expr Binary64).IsFinite :=
  List.forall_mem_nil _

@[simp] theorem isFinite_call₀ (f : Builtin) : (call₀ f : Expr Binary64).IsFinite :=
  List.forall_mem_nil _

@[simp] theorem isFinite_const {k : Binary64} : (const k).IsFinite ↔ k.isFinite = true :=
  List.forall_mem_singleton

@[simp] theorem isFinite_binary {op : Operator} :
    (binary op a b).IsFinite ↔ a.IsFinite ∧ b.IsFinite :=
  List.forall_mem_append

@[simp] theorem isFinite_neg : (neg a).IsFinite ↔ a.IsFinite :=
  Iff.rfl

@[simp] theorem isFinite_call₁ {f : Builtin} : (call₁ f a).IsFinite ↔ a.IsFinite :=
  Iff.rfl

@[simp] theorem isFinite_call₂ {f : Builtin} :
    (call₂ f a b).IsFinite ↔ a.IsFinite ∧ b.IsFinite :=
  List.forall_mem_append

end parts

/-- A small natural number as a constant. -/
theorem isFinite_nat {n : Nat} (h : n ≤ 10) : (nat n : Expr Binary64).IsFinite :=
  isFinite_const.mpr (Binary64.isFinite_natCast (Binary64.fits_of_le (by omega) (by decide)))

/-- Equal expressions have constants of equal values. -/
theorem isFinite_iff_of_beq {a b : Expr Binary64} (h : (a == b) = true) :
    a.IsFinite ↔ b.IsFinite := by
  replace h : a.sameAs b = true := h
  induction a generalizing b with
  | const k =>
    cases b with
    | const l => rw [isFinite_const, isFinite_const, Binary64.isFinite_eq_of_beq h]
    | _ => contradiction
  | binary op a₁ a₂ ih₁ ih₂ =>
    cases b with
    | binary op' b₁ b₂ =>
      obtain ⟨⟨-, h₁⟩, h₂⟩ : (_ ∧ _) ∧ _ := by simpa [sameAs] using h
      have hiff : a₁.IsFinite ∧ a₂.IsFinite ↔ b₁.IsFinite ∧ b₂.IsFinite :=
        and_congr (ih₁ h₁) (ih₂ h₂)
      rwa [isFinite_binary, isFinite_binary]
    | _ => contradiction
  | neg a ih =>
    cases b with
    | neg b =>
      have hiff : a.IsFinite ↔ b.IsFinite := ih h
      exact hiff
    | _ => contradiction
  | call₁ f x ih =>
    cases b with
    | call₁ g y =>
      have hiff : x.IsFinite ↔ y.IsFinite := ih (Bool.and_eq_true_iff.mp h).2
      exact hiff
    | _ => contradiction
  | call₂ f x y ihx ihy =>
    cases b with
    | call₂ g x' y' =>
      obtain ⟨⟨-, hx⟩, hy⟩ : (_ ∧ _) ∧ _ := by simpa [sameAs] using h
      have hiff : x.IsFinite ∧ y.IsFinite ↔ x'.IsFinite ∧ y'.IsFinite := and_congr (ihx hx) (ihy hy)
      rwa [isFinite_call₂, isFinite_call₂]
    | _ => contradiction
  | param | call₀ =>
    cases b with
    | param | call₀ => simp
    | _ => contradiction

/-! ## Rules -/

/-- An operation has a result if that is finite. -/
theorem isFinite_of_result? {op : Operator} {x y k : Binary64} (h : op.result? x y = some k) :
    k.isFinite = true := by
  unfold Operator.result? at h
  split at h
  · next hdefined =>
    obtain rfl := Option.some.inj h
    exact hdefined
  · contradiction

@[simp] theorem isFinite_opposite (k : Binary64) : (-k).isFinite = k.isFinite :=
  Binary64.isFinite_neg k

@[simp] theorem isFinite_scalarMagnitude (k : Binary64) :
    (Scalar.magnitude k).isFinite = k.isFinite :=
  Binary64.isFinite_magnitude k

/-- A rule for anything but a product. -/
theorem isFinite_of_rewrites {e r : Expr Binary64} (h : Rewrites e r) (he : e.IsFinite)
    (hne : ∀ a b, e ≠ product a b) : r.IsFinite := by
  have hone : (Nat.cast 1 : Binary64).isFinite = true :=
    isFinite_const.mp (isFinite_nat (by decide))
  have htwo : (Nat.cast 2 : Binary64).isFinite = true :=
    isFinite_const.mp (isFinite_nat (by decide))
  cases h with
  | cancelled a b hn => exact isFinite_nat (by omega)
  | folded h => exact isFinite_const.mpr (isFinite_of_result? h)
  | merged | merged' => exact absurd rfl (hne _ _)
  | _ =>
    -- Constants with another sign, small ones, and parts of the node.
    simp_all

end Expr

/-- The coefficient that two coefficients of a product were merged to, by a rule or in an
expansion. -/
def Event.mergedCoefficient? {α : Type} : Event α → Option α
  | .replaced rule (.binary .times (.const k) _) =>
    if rule = "k*(k'*x) = (k*k')*x" then some k else none
  | .distributed _ (.binary .times (.const k) _) => some k
  | _ => none

namespace Rule

open SymbolicCalculus.Expr

/-- A product that is merged has finite constants if its coefficient is finite. -/
theorem isFinite_of_mergeCoefficients? {a b r : Expr Binary64} (ha : a.IsFinite) (hb : b.IsFinite)
    (h : mergeCoefficients? a b = some r) :
    ∃ k u, r = product (const k) u ∧ u.IsFinite := by
  have hscaled : ∀ {k : Binary64} {e : Expr Binary64}, e.IsFinite → scaleProduct? k e = some r →
      ∃ k u, r = product (const k) u ∧ u.IsFinite := by
    intro k e he h
    obtain ⟨l, u, hu, rfl⟩ := eq_product_of_scaleProduct? h
    refine ⟨_, u, rfl, ?_⟩
    rcases hu with rfl | rfl
    · exact (isFinite_binary.mp he).2
    · exact (isFinite_binary.mp he).1
  unfold mergeCoefficients? at h
  split at h
  · contradiction
  · exact hscaled hb h
  · exact hscaled ha h
  · contradiction

/-- The rules for products, of which only the one that merges coefficients may make an infinite
constant. -/
theorem isFinite_of_products :
    ∀ rule ∈ (products : List (Rule Binary64)), ∀ a b r, rule.replace? a b = some r →
      a.IsFinite → b.IsFinite →
      (∀ k ∈ (Event.replaced rule.name r).mergedCoefficient?, k.isFinite = true) → r.IsFinite := by
  simp only [products, List.forall_mem_cons]
  refine ⟨?_, ?_, ?_, ?_, ?_, ?_, ?_, ?_, ?_, by simp⟩ <;> intro a b r h ha hb hmerged
  · -- 0 * x = 0
    obtain ⟨-, rfl⟩ : (a.isZero = true ∨ b.isZero = true) ∧ nat 0 = r := by simpa using h
    exact isFinite_nat (by decide)
  · -- 1 * x = x
    obtain ⟨-, rfl⟩ : a.isOne = true ∧ b = r := by simpa using h
    exact hb
  · -- x * 1 = x
    obtain ⟨-, rfl⟩ : b.isOne = true ∧ a = r := by simpa using h
    exact ha
  · -- fold multiplication
    unfold fold? at h
    split at h
    · obtain ⟨m, hm, rfl⟩ := Option.map_eq_some_iff.mp h
      exact isFinite_const.mpr (isFinite_of_result? hm)
    · contradiction
  · -- k*(k'*x) = (k*k')*x
    obtain ⟨k, u, rfl, hu⟩ := isFinite_of_mergeCoefficients? ha hb h
    exact isFinite_binary.mpr ⟨isFinite_const.mpr (hmerged k rfl), hu⟩
  · -- A * (1/B) = A/B
    split at h
    · next x y =>
      obtain ⟨-, rfl⟩ : x.isOne = true ∧ quotient a y = r := by simpa using h
      exact isFinite_binary.mpr ⟨ha, (isFinite_binary.mp hb).2⟩
    · contradiction
  · -- (1/B) * A = A/B
    split at h
    · next x y =>
      obtain ⟨-, rfl⟩ : x.isOne = true ∧ quotient b y = r := by simpa using h
      exact isFinite_binary.mpr ⟨hb, (isFinite_binary.mp ha).2⟩
    · contradiction
  · -- (B/A) * A = B
    split at h
    · next x y =>
      obtain ⟨-, rfl⟩ : (y == b) = true ∧ x = r := by simpa using h
      exact (isFinite_binary.mp ha).1
    · contradiction
  · -- A * (B/A) = B
    split at h
    · next x y =>
      obtain ⟨-, rfl⟩ : (y == a) = true ∧ x = r := by simpa using h
      exact (isFinite_binary.mp hb).1
    · contradiction

end Rule

namespace Expr

/-- What a rule makes of finite constants is finite, but for a coefficient that was merged. -/
theorem isFinite_of_replacement? {e r : Expr Binary64} {name : String}
    (h : e.replacement? = some (name, r)) (he : e.IsFinite)
    (hmerged : ∀ k ∈ (Event.replaced name r).mergedCoefficient?, k.isFinite = true) :
    r.IsFinite := by
  by_cases hproduct : ∃ a b, e = product a b
  · obtain ⟨a, b, rfl⟩ := hproduct
    obtain ⟨ha, hb⟩ := isFinite_binary.mp he
    obtain ⟨rule, hmem, hrule⟩ := List.exists_of_findSome?_eq_some h
    obtain ⟨r', hr', heq⟩ := Option.map_eq_some_iff.mp hrule
    obtain ⟨rfl, rfl⟩ := Prod.mk.inj heq
    exact Rule.isFinite_of_products rule hmem a b r' hr' ha hb hmerged
  · exact isFinite_of_rewrites (rewrites_of_replacement? h) he
      fun a b heq => hproduct ⟨a, b, heq⟩

/-! ## Derivatives -/

theorem IsFinite.substitute {e w : Expr Binary64} (he : e.IsFinite) (hw : w.IsFinite) (p : String) :
    (e.substitute p w).IsFinite := by
  induction e with
  | param q =>
    unfold Expr.substitute
    split
    · exact hw
    · exact isFinite_param q
  | const | call₀ => exact he
  | binary op a b iha ihb =>
    obtain ⟨ha, hb⟩ := isFinite_binary.mp he
    exact isFinite_binary.mpr ⟨iha ha, ihb hb⟩
  | neg a ih => exact ih he
  | call₁ f x ih => exact ih he
  | call₂ f x y ihx ihy =>
    obtain ⟨hx, hy⟩ := isFinite_call₂.mp he
    exact isFinite_call₂.mpr ⟨ihx hx, ihy hy⟩

theorem isFinite_derivativeTemplate (f : Builtin) (n : Nat) :
    (f.derivativeTemplate n : Expr Binary64).IsFinite := by
  have hone : (nat 1 : Expr Binary64).IsFinite := isFinite_nat (by decide)
  have htwo : (nat 2 : Expr Binary64).IsFinite := isFinite_nat (by decide)
  have hten : (nat 10 : Expr Binary64).IsFinite := isFinite_nat (by decide)
  unfold Builtin.derivativeTemplate
  split <;> simp only [isFinite_binary, isFinite_neg, isFinite_call₁, isFinite_param, hone, htwo,
    hten, and_self]

theorem IsFinite.fill {template : Expr Binary64} (htemplate : template.IsFinite) (index : Nat)
    {arguments : List (Expr Binary64)} (harguments : ∀ x ∈ arguments, x.IsFinite) :
    (Builtin.fill template index arguments).IsFinite := by
  induction arguments generalizing template index with
  | nil => exact htemplate
  | cons x rest ih =>
    obtain ⟨hx, hrest⟩ := List.forall_mem_cons.mp harguments
    exact ih (htemplate.substitute hx _) _ hrest

theorem isFinite_outerDerivative (f : Builtin) {arguments : List (Expr Binary64)}
    (harguments : ∀ x ∈ arguments, x.IsFinite) : (f.outerDerivative arguments).IsFinite :=
  (isFinite_derivativeTemplate f _).fill 0 harguments

/-- The derivative of an expression with finite constants. -/
theorem isFinite_of_derivative {p : String} {e d : Expr Binary64} (he : e.IsFinite)
    (h : e.derivative p = .ok d) : d.IsFinite := by
  have hone : (nat 1 : Expr Binary64).IsFinite := isFinite_nat (by decide)
  have htwo : (nat 2 : Expr Binary64).IsFinite := isFinite_nat (by decide)
  induction e generalizing d with
  | param q =>
    obtain rfl := Except.ok.inj h
    split <;> exact isFinite_nat (by decide)
  | const k =>
    obtain rfl := Except.ok.inj h
    exact isFinite_nat (by decide)
  | binary op a b iha ihb =>
    obtain ⟨ha, hb⟩ := isFinite_binary.mp he
    cases op with
    | plus =>
      obtain ⟨a', ha', b', hb', rfl⟩ := derivative_sum_eq_ok.mp h
      exact isFinite_binary.mpr ⟨iha ha ha', ihb hb hb'⟩
    | minus =>
      obtain ⟨a', ha', b', hb', rfl⟩ := derivative_difference_eq_ok.mp h
      exact isFinite_binary.mpr ⟨iha ha ha', ihb hb hb'⟩
    | times =>
      obtain ⟨a', ha', b', hb', rfl⟩ := derivative_product_eq_ok.mp h
      have ha' := iha ha ha'
      have hb' := ihb hb hb'
      simp only [isFinite_binary, ha, hb, ha', hb', and_self]
    | divide =>
      obtain ⟨a', ha', b', hb', rfl⟩ := derivative_quotient_eq_ok.mp h
      have ha' := iha ha ha'
      have hb' := ihb hb hb'
      simp only [isFinite_binary, ha, hb, ha', hb', htwo, and_self]
    | power =>
      obtain ⟨-, a', ha', rfl⟩ := derivative_power_eq_ok.mp h
      have ha' := iha ha ha'
      simp only [isFinite_binary, ha, hb, ha', hone, and_self]
  | neg a ih =>
    obtain ⟨a', ha', rfl⟩ := derivative_neg_eq_ok.mp h
    exact isFinite_neg.mpr (ih (isFinite_neg.mp he) ha')
  | call₀ f => contradiction
  | call₁ f x ih =>
    have hx := isFinite_call₁.mp he
    obtain ⟨x', hx', rfl⟩ := derivative_call₁_eq_ok.mp h
    have houter := isFinite_outerDerivative f (List.forall_mem_singleton.mpr hx)
    exact isFinite_binary.mpr ⟨houter, ih hx hx'⟩
  | call₂ f x base ih _ =>
    obtain ⟨hx, hbase⟩ := isFinite_call₂.mp he
    obtain ⟨-, x', hx', rfl⟩ := derivative_call₂_eq_ok.mp h
    have houter := isFinite_outerDerivative f
      (List.forall_mem_cons.mpr ⟨hx, List.forall_mem_singleton.mpr hbase⟩)
    exact isFinite_binary.mpr ⟨houter, ih hx hx'⟩

end Expr

end SymbolicCalculus
