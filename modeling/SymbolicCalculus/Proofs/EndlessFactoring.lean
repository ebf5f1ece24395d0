import SymbolicCalculus.Proofs.ExactValue
import SymbolicCalculus.Proofs.Settling

/-!
# A factor that is pulled out for ever

A factor that is pulled out of a sum should make its terms smaller. Where it leaves them as they are
(`IsEndless`), the sum becomes a multiple of itself, and the same factor is pulled out of it again
on each level that a pass reaches and in each pass. No tree of such a run is settled
(`IsEndless.not_isSettled`). In `0/0/y*4 + 0/0/z*6` the coefficients have the common divisor two,
which is taken from each term where it is found first, and that is the zero in the numerator.
-/

namespace SymbolicCalculus.Expr

section inert

variable {α : Type} [Scalar α]

/-- A tree of operators that no pass changes: no rule matches, and nothing can be pulled out. -/
def isInert : Expr α → Bool
  | param _ | const _ => true
  | binary op a b =>
    (binary op a b).replacement?.isNone && !(binary op a b).factored.changed && a.isInert &&
      b.isInert
  | _ => false

theorem refine_of_isInert {e : Expr α} (h : e.isInert = true) (levels : Nat) :
    e.refine levels = .unchanged e := by
  induction e generalizing levels with
  | param p => exact refine_of_isLeaf rfl
  | const k => exact refine_of_isLeaf rfl
  | binary op a b iha ihb =>
    simp only [isInert, Bool.and_eq_true, Option.isNone_iff_eq_none, Bool.not_eq_true'] at h
    obtain ⟨⟨⟨hrule, hfactor⟩, ha⟩, hb⟩ := h
    cases levels with
    | zero => rfl
    | succ levels =>
      have hnode : (binary op a b).reduceNode (refine levels) = .unchanged (binary op a b) := by
        rw [reduceNode_of_no_rule _ hrule, reviseParts, iha ha, ihb hb]
        rfl
      rw [refine_of_not_changed rfl (by rw [hnode]; exact hfactor), hnode]
  | _ => contradiction

end inert

/-! ## Rules for multiples -/

section multiples

variable {k l : Rat} {a b r : Expr Rat}

theorem one_lt_mul_coefficients (hk : 1 < k) (hl : 1 < l) : 1 < l * k :=
  lt_trans hl (lt_mul_of_one_lt_right (lt_trans zero_lt_one hl) hk)

theorem isZero_eq_false (hk : 1 < k) : (const k).isZero = false := by
  have hne : k ≠ 0 := by grind
  exact beq_false_of_ne hne

theorem isOne_eq_false (hk : 1 < k) : (const k).isOne = false := by
  have hne : k ≠ 1 := by grind
  exact beq_false_of_ne hne

/-- Coefficients are merged if no rule before that one matches. -/
theorem replacement?_of_mergeCoefficients? (ha : a.isZero = false) (hb : b.isZero = false)
    (ha' : a.isOne = false) (hb' : b.isOne = false) (h : mergeCoefficients? a b = some r) :
    (product a b).replacement? = some ("k*(k'*x) = (k*k')*x", r) := by
  have hfold : Rule.fold? .times a b = none := by
    unfold Rule.fold?
    split
    · contradiction
    · rfl
  simp [replacement?, Rule.firstMatch?, Rule.forOperator, Rule.products, ha, hb, ha', hb', hfold, h]

/-- No rule multiplies a sum by a coefficient. -/
theorem replacement?_const_sum (hk : 1 < k) (a b : Expr Rat) :
    (product (const k) (sum a b)).replacement? = none := by
  have hzero : (sum a b).isZero = false := rfl
  have hone : (sum a b).isOne = false := rfl
  simp [replacement?, Rule.firstMatch?, Rule.forOperator, Rule.products, Rule.fold?,
    mergeCoefficients?, scaleProduct?, isZero_eq_false hk, isOne_eq_false hk, hzero, hone]

theorem replacement?_sum_const (hk : 1 < k) (a b : Expr Rat) :
    (product (sum a b) (const k)).replacement? = none := by
  have hzero : (sum a b).isZero = false := rfl
  have hone : (sum a b).isOne = false := rfl
  simp [replacement?, Rule.firstMatch?, Rule.forOperator, Rule.products, Rule.fold?,
    mergeCoefficients?, scaleProduct?, isZero_eq_false hk, isOne_eq_false hk, hzero, hone]

/-- The sum multiplied by `k` so often. -/
def scaled (k : Rat) (a b : Expr Rat) : Nat → Expr Rat
  | 0 => sum a b
  | n + 1 => product (scaled k a b n) (const k)

theorem size_scaled (k : Rat) (a b : Expr Rat) (n : Nat) :
    (scaled k a b n).size = 2 * n + (sum a b).size := by
  induction n with
  | zero => rw [scaled, Nat.mul_zero, Nat.zero_add]
  | succ n ih =>
    rw [scaled, size, ih, size]
    omega

theorem size_const_scaled (k l : Rat) (a b : Expr Rat) (n : Nat) :
    (product (const l) (scaled k a b n)).size = 2 * n + (sum a b).size + 2 := by
  rw [size, size, size_scaled]
  omega

/-- The last factor is merged into a coefficient before the multiple. -/
theorem scaleProduct?_scaled (k l : Rat) (a b : Expr Rat) (n : Nat) :
    scaleProduct? l (scaled k a b (n + 1)) = some (product (const (l * k)) (scaled k a b n)) := by
  cases n with
  | zero => rfl
  | succ n => rfl

end multiples

/-! ## Passes over the multiples -/

/-- The factor `k` is pulled out of the sum, which leaves its terms as they are. No rule and no pass
changes anything else in it. -/
structure IsEndless (k : Rat) (a b : Expr Rat) : Prop where
  one_lt : 1 < k
  left : a.isInert = true
  right : b.isInert = true
  no_rule : (sum a b).replacement? = none
  pulled : (sum a b).factored.changed = true
  unchanged : (sum a b).factored.expr = product (sum a b) (const k)

namespace IsEndless

variable {k l : Rat} {a b : Expr Rat} (h : IsEndless k a b) (hl : 1 < l)

section passes

variable (levels : Nat)

include h

theorem reduceNode_sum : ((sum a b).reduceNode (refine levels)).expr = sum a b := by
  rw [reduceNode_of_no_rule _ h.no_rule, reviseParts, refine_of_isInert h.left,
    refine_of_isInert h.right]
  rfl

/-- The sum is multiplied once on each level that a pass reaches. -/
theorem refine_sum : ((sum a b).refine levels).expr = scaled k a b levels := by
  induction levels with
  | zero => rfl
  | succ levels ih =>
    have hproduct := reduceNode_of_no_rule (refine levels) (replacement?_sum_const h.one_lt a b)
    rw [refine, if_neg (by simp [isLeaf])]
    simp only [h.reduceNode_sum, if_pos h.pulled, h.unchanged, hproduct]
    exact congrArg₂ product ih (congrArg Revision.expr (refine_of_isLeaf rfl))

theorem refine_scaled_one :
    ((scaled k a b 1).refine (levels + 1)).expr = scaled k a b (levels + 1) := by
  have hnode : ((product (sum a b) (const k)).reduceNode (refine levels)).expr =
      scaled k a b (levels + 1) := by
    rw [reduceNode_of_no_rule _ (replacement?_sum_const h.one_lt a b)]
    exact congrArg₂ product (h.refine_sum levels) (congrArg Revision.expr (refine_of_isLeaf rfl))
  rw [scaled, scaled, refine_of_not_changed rfl (by rw [hnode]; rfl), hnode]

/-- Two factors are merged into one coefficient. -/
theorem refine_scaled (n : Nat) :
    ((scaled k a b (n + 2)).refine (levels + 1)).expr =
      product (const (k * k)) (scaled k a b n) :=
  refine_of_rule (replacement?_of_mergeCoefficients? rfl (isZero_eq_false h.one_lt) rfl
    (isOne_eq_false h.one_lt) (scaleProduct?_scaled k k a b n)) rfl

include hl

/-- When a coefficient has taken in all the factors, the sum is multiplied anew. -/
theorem refine_multiple_zero :
    ((product (const l) (scaled k a b 0)).refine (levels + 1)).expr =
      product (const l) (scaled k a b levels) := by
  have hnode : ((product (const l) (sum a b)).reduceNode (refine levels)).expr =
      product (const l) (scaled k a b levels) := by
    rw [reduceNode_of_no_rule _ (replacement?_const_sum hl a b), reviseParts,
      refine_of_isLeaf rfl]
    exact congrArg (product (const l)) (h.refine_sum levels)
  rw [scaled, refine_of_not_changed rfl (by rw [hnode]; rfl), hnode]

omit h in
/-- The coefficient takes in one factor after the other. -/
theorem refine_multiple (n : Nat) :
    ((product (const l) (scaled k a b (n + 1))).refine (levels + 1)).expr =
      product (const (l * k)) (scaled k a b n) :=
  refine_of_rule (replacement?_of_mergeCoefficients? (isZero_eq_false hl) rfl (isOne_eq_false hl)
    rfl (scaleProduct?_scaled k l a b n)) rfl

end passes

/-! ## No pass is the last -/

/-- The trees of a run from the sum: the sum multiplied some times, maybe with a coefficient. -/
inductive IsMultiple (k : Rat) (a b : Expr Rat) : Expr Rat → Prop where
  | scaled (n : Nat) : IsMultiple k a b (scaled k a b n)
  | product {l : Rat} (hl : 1 < l) (n : Nat) :
    IsMultiple k a b (product (const l) (Expr.scaled k a b n))

variable {limits : Limits} {e : Expr Rat}

include h

/-- A pass that reaches below the root makes another multiple of each, of another size. -/
theorem onePass_isMultiple (hdepth : 1 ≤ limits.maxDepth) (he : IsMultiple k a b e) :
    IsMultiple k a b (e.onePass limits) ∧ (e.onePass limits).size ≠ e.size := by
  obtain ⟨levels, hlevels⟩ := Nat.exists_eq_add_of_le' hdepth
  rw [onePass, reduceOnce, hlevels]
  cases he with
  | scaled n =>
    rcases n with _ | _ | n
    · have hpass : ((scaled k a b 0).refine (levels + 2)).expr = scaled k a b (levels + 2) :=
        h.refine_sum _
      rw [hpass, size_scaled, size_scaled]
      exact ⟨.scaled _, by omega⟩
    · rw [h.refine_scaled_one, size_scaled, size_scaled]
      exact ⟨.scaled _, by omega⟩
    · rw [h.refine_scaled, size_const_scaled, size_scaled]
      exact ⟨.product (one_lt_mul_coefficients h.one_lt h.one_lt) n, by omega⟩
  | product hl n =>
    cases n with
    | zero =>
      rw [h.refine_multiple_zero hl, size_const_scaled, size_const_scaled]
      exact ⟨.product hl _, by omega⟩
    | succ n =>
      rw [refine_multiple hl, size_const_scaled, size_const_scaled]
      exact ⟨.product (one_lt_mul_coefficients h.one_lt hl) n, by omega⟩

theorem iterate_isMultiple (hdepth : 1 ≤ limits.maxDepth) (he : IsMultiple k a b e) (n : Nat) :
    IsMultiple k a b ((onePass limits)^[n] e) := by
  induction n generalizing e with
  | zero => exact he
  | succ n ih => exact ih (h.onePass_isMultiple hdepth he).1

/-- **Passes over such a sum never settle**, whenever they reach below the root. -/
theorem not_isSettled (hdepth : 1 ≤ limits.maxDepth) (n : Nat) :
    ¬ IsSettled limits ((onePass limits)^[n] (sum a b)) := by
  intro hsettled
  have hmultiple := h.iterate_isMultiple hdepth (.scaled 0) n
  exact (h.onePass_isMultiple hdepth hmultiple).2 (congrArg size (eq_of_beq hsettled))

end IsEndless

/-- `0/0` divided by a parameter. No rule matches within it. -/
def undefinedOver (p : String) : Expr Rat :=
  quotient (quotient (nat 0) (nat 0)) (param p)

/-- Two is pulled out of `0/0/y*4 + 0/0/z*6` for ever. -/
theorem isEndless_undefinedSum :
    IsEndless 2 (product (undefinedOver "y") (nat 4)) (product (undefinedOver "z") (nat 6)) where
  one_lt := by decide
  left := by decide +kernel
  right := by decide +kernel
  no_rule := by decide +kernel
  pulled := by decide +kernel
  unchanged := by decide +kernel

/-- Under the default limits, the passes from `0/0/y*4 + 0/0/z*6` never settle. -/
theorem not_settles_undefinedSum :
    ¬ ∃ n, IsSettled {} ((onePass {})^[n]
      (sum (product (undefinedOver "y") (nat 4)) (product (undefinedOver "z") (nat 6)))) := by
  rintro ⟨n, hsettled⟩
  exact isEndless_undefinedSum.not_isSettled (by decide) n hsettled

end SymbolicCalculus.Expr
