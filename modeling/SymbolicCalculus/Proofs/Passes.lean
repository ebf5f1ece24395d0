import Mathlib.Logic.Function.Iterate
import SymbolicCalculus.Binary64.Basic
import SymbolicCalculus.Reduction.Pass

/-!
# Passes one after the other

A pass takes a few kinds of steps, and what each of them keeps, the pass keeps
(`IsPassInvariant.refine`). A reduction returns the first of the trees after 0, 1, 2, … passes that the next pass leaves the
same (`IsSettled`), or the last one that the limit on passes allows (`reduce_eq_iterate`). Hence
reducing twice is reducing once exactly for the expressions that settle within the limit
(`reduce_reduce_iff`). Not all do: under the default limit of 256 passes, 257 zeros that are added
one after the other are too many, since each pass takes away one of them
(`reduce_reduce_zeros`).
-/

namespace SymbolicCalculus.Expr

variable {α : Type} [Scalar α] {limits : Limits}

/-- What one pass makes of an expression. -/
def onePass (limits : Limits) (e : Expr α) : Expr α :=
  (e.reduceOnce limits).expr

/-- A pass returns the same tree. -/
def IsSettled (limits : Limits) (e : Expr α) : Prop :=
  (onePass limits e == e) = true

instance (limits : Limits) (e : Expr α) : Decidable (IsSettled limits e) :=
  inferInstanceAs (Decidable (_ = true))

/-! ## A pass over a node -/

section nodes

variable {levels : Nat} {op : Operator} {a b r : Expr α}

theorem refine_of_isLeaf {e : Expr α} (h : e.isLeaf = true) : e.refine levels = .unchanged e := by
  cases levels with
  | zero => rfl
  | succ levels => rw [refine, if_pos h]

/-- If nothing is pulled out of it, a node is what it was reduced to. -/
theorem refine_of_not_changed {e : Expr α} (hleaf : e.isLeaf = false)
    (h : (e.reduceNode (refine levels)).expr.factored.changed = false) :
    e.refine (levels + 1) = e.reduceNode (refine levels) := by
  rw [refine, if_neg (by simp [hleaf])]
  simp only [h, Bool.false_eq_true, if_false]

theorem reduceNode_of_rule {e : Expr α} {name : String} (part : Expr α → Revision α)
    (h : e.replacement? = some (name, r)) :
    e.reduceNode part = ⟨r, true, [.replaced name r]⟩ := by
  rw [reduceNode, h]

theorem reduceNode_of_no_rule {e : Expr α} (part : Expr α → Revision α)
    (h : e.replacement? = none) : e.reduceNode part = e.reviseParts part := by
  rw [reduceNode, h]

theorem refine_of_rule {name : String} (h : (binary op a b).replacement? = some (name, r))
    (hfactored : r.factored.changed = false) : ((binary op a b).refine (levels + 1)).expr = r := by
  have hnode := reduceNode_of_rule (refine levels) h
  rw [refine_of_not_changed rfl (by rw [hnode]; exact hfactored), hnode]

end nodes

/-! ## What a pass keeps -/

/-- A relation between expressions and their revisions that a pass keeps: it holds of each step, goes
through from the parts to the node, and from one revision to the next if one of them is a change. -/
structure IsPassInvariant (R : Expr α → Revision α → Prop) : Prop where
  unchanged : ∀ e, R e (.unchanged e)
  rule : ∀ {e r name}, e.replacement? = some (name, r) → R e ⟨r, true, [.replaced name r]⟩
  parts : ∀ {part : Expr α → Revision α}, (∀ x, R x (part x)) → ∀ e, R e (e.reviseParts part)
  factored : ∀ {e}, e.factored.changed = true → R e e.factored
  trans : ∀ {e r s}, R e r → R r.expr s → r.changed = true ∨ s.changed = true →
    R e ⟨s.expr, true, r.events ++ s.events⟩

namespace IsPassInvariant

variable {R : Expr α → Revision α → Prop} (h : IsPassInvariant R)

include h

theorem reduceNode {part : Expr α → Revision α} (hpart : ∀ x, R x (part x)) (e : Expr α) :
    R e (e.reduceNode part) := by
  cases hrule : e.replacement? with
  | none =>
    rw [reduceNode_of_no_rule _ hrule]
    exact h.parts hpart e
  | some found =>
    rw [reduceNode_of_rule _ hrule]
    exact h.rule hrule

/-- **What holds of each step of a pass holds of the pass.** -/
theorem refine (levels : Nat) (e : Expr α) : R e (e.refine levels) := by
  induction levels generalizing e with
  | zero => exact h.unchanged e
  | succ levels ih =>
    rw [Expr.refine]
    split
    · exact h.unchanged e
    · dsimp only
      split
      · next hpulled =>
        have hfirst := h.trans (h.reduceNode ih e) (h.factored hpulled) (.inr hpulled)
        exact h.trans hfirst (h.reduceNode ih _) (.inl rfl)
      · exact h.reduceNode ih e

end IsPassInvariant

/-! ## What a reduction returns -/

/-- A run of at most `passes` passes makes `n` of them: none of the trees before the last is
settled, and the last is unless the passes ran out. -/
structure IsRun (limits : Limits) (passes n : Nat) (e : Expr α) : Prop where
  le : n ≤ passes
  not_settled : ∀ m < n, ¬ IsSettled limits ((onePass limits)^[m] e)
  settled : n < passes → IsSettled limits ((onePass limits)^[n] e)

theorem IsRun.zero_of_settled {passes : Nat} {e : Expr α} (h : IsSettled limits e) :
    IsRun limits passes 0 e :=
  ⟨Nat.zero_le _, fun _ hm => absurd hm (Nat.not_lt_zero _), fun _ => h⟩

theorem IsRun.succ {passes n : Nat} {e : Expr α} (he : ¬ IsSettled limits e)
    (h : IsRun limits passes n (onePass limits e)) : IsRun limits (passes + 1) (n + 1) e where
  le := Nat.succ_le_succ h.le
  not_settled m hm := by
    cases m with
    | zero => exact he
    | succ m => exact h.not_settled m (by omega)
  settled hn := h.settled (by omega)

/-- The number of passes until the tree settles, up to a bound. -/
theorem reduceFrom_eq_iterate (pass : Nat) (changed : Bool) (passes : Nat) (e : Expr α) :
    ∃ n, IsRun limits passes n e ∧
      (e.reduceFrom limits pass changed passes).expr = (onePass limits)^[n] e ∧
      (e.reduceFrom limits pass changed passes).changed = (changed || decide (0 < n)) := by
  induction passes generalizing pass changed e with
  | zero =>
    refine ⟨0, ⟨Nat.le_refl _, ?_, ?_⟩, rfl, by simp [reduceFrom]⟩
    · exact fun _ hm => absurd hm (Nat.not_lt_zero _)
    · exact fun h => absurd h (Nat.lt_irrefl _)
  | succ passes ih =>
    rw [reduceFrom]
    dsimp only
    split
    · next hsettled => exact ⟨0, .zero_of_settled hsettled, rfl, by simp⟩
    · next hsettled =>
      obtain ⟨n, hrun, hexpr, hchanged⟩ := ih (pass + 1) true (e.reduceOnce limits).expr
      exact ⟨n + 1, .succ hsettled hrun, hexpr, by rw [hchanged]; simp⟩

/-- A reduction returns the first settled tree, or the last one within the limit, and says that the
tree changed if there was a pass before that. -/
theorem reduce_eq_iterate (limits : Limits) (e : Expr α) :
    ∃ n, IsRun limits limits.maxPasses n e ∧
      (e.reduce limits).expr = (onePass limits)^[n] e ∧
      (e.reduce limits).changed = decide (0 < n) := by
  obtain ⟨n, hrun, hexpr, hchanged⟩ := reduceFrom_eq_iterate 0 false limits.maxPasses e
  exact ⟨n, hrun, hexpr, by rw [← Bool.false_or (decide (0 < n))]; exact hchanged⟩

/-- A settled tree is what a reduction returns, unchanged. -/
theorem reduce_of_isSettled {e : Expr α} (h : IsSettled limits e) :
    (e.reduce limits).changed = false ∧ (e.reduce limits).expr = e := by
  obtain ⟨n, hrun, hexpr, hchanged⟩ := reduce_eq_iterate limits e
  cases n with
  | zero => exact ⟨hchanged, hexpr⟩
  | succ n => exact absurd h (hrun.not_settled 0 (Nat.succ_pos n))

theorem isSettled_of_reduce {e : Expr α} (hlimit : 0 < limits.maxPasses)
    (h : (e.reduce limits).changed = false) : IsSettled limits e := by
  obtain ⟨n, hrun, -, hchanged⟩ := reduce_eq_iterate limits e
  obtain rfl : n = 0 := by
    rw [hchanged] at h
    simpa using h
  exact hrun.settled hlimit

/-! ## Reducing twice -/

/-- **Reduction is idempotent within its limit.** Reducing what a reduction returned changes nothing
exactly if some number of passes within the default limit takes the expression to a tree that the
next pass leaves the same. -/
theorem reduce_reduce_iff (t : Expr α) :
    (((t.reduce {}).expr.reduce {}).changed = false ∧
        ((t.reduce {}).expr.reduce {}).expr = (t.reduce {}).expr) ↔
      ∃ n ≤ 256, IsSettled {} ((onePass {})^[n] t) := by
  obtain ⟨n, hrun, hexpr, -⟩ := reduce_eq_iterate {} t
  rw [hexpr]
  constructor
  · rintro ⟨hchanged, -⟩
    exact ⟨n, hrun.le, isSettled_of_reduce (by decide) hchanged⟩
  · rintro ⟨m, hm, hsettled⟩
    refine reduce_of_isSettled ?_
    -- The run goes on until the first settled tree, and so no further than to this one.
    have hnm : n ≤ m := by
      by_contra hlt
      exact hrun.not_settled m (by omega) hsettled
    rcases Nat.lt_or_eq_of_le hrun.le with hlt | heq
    · exact hrun.settled hlt
    · obtain rfl : n = m := Nat.le_antisymm hnm (by rw [heq]; exact hm)
      exact hsettled

/-! ## Too many passes -/

/-- So many zeros added to `x`, the last one outermost. -/
def zeros (n : Nat) : Expr Binary64 :=
  (sum (nat 0))^[n] (param "x")

theorem zeros_succ (n : Nat) : zeros (n + 1) = sum (nat 0) (zeros n) :=
  Function.iterate_succ_apply' _ _ _

theorem isZero_nat_zero : (nat 0 : Expr Binary64).isZero = true := by
  decide

theorem zeros_beq_zeros (m n : Nat) : (zeros m == zeros n) = decide (m = n) := by
  induction m generalizing n with
  | zero =>
    cases n with
    | zero => decide
    | succ n => rw [zeros_succ]; rfl
  | succ m ih =>
    cases n with
    | zero => rw [zeros_succ]; rfl
    | succ n =>
      have hzero : ((nat 0 : Expr Binary64) == nat 0) = true := by decide
      rw [zeros_succ, zeros_succ]
      show (Operator.plus == Operator.plus && ((nat 0 : Expr Binary64) == nat 0) &&
        (zeros m == zeros n)) = _
      rw [hzero, ih]
      simp

theorem replacement?_zeros (n : Nat) :
    (zeros (n + 1)).replacement? = some ("0 + x = x", zeros n) := by
  rw [zeros_succ]
  simp [replacement?, Rule.forOperator, Rule.sums, Rule.firstMatch?, isZero_nat_zero]

theorem commonFactor?_of_isZero {a b : Expr α} (h : a.isZero = true) :
    commonFactor? a b = some b := by
  obtain ⟨n, hn⟩ : ∃ n, a.size + b.size = n + 1 :=
    ⟨a.size + b.size - 1, by have := a.size_pos; omega⟩
  rw [commonFactor?, hn, commonFactorWithin?, if_pos h]

/-- The common factor of zero and something else is the other operand, which is not pulled out. -/
theorem factored_zeros (n : Nat) : (zeros n).factored = .unchanged (zeros n) := by
  cases n with
  | zero => rfl
  | succ n =>
    have hidle : isIdleFactor .plus (nat 0) (zeros n) (zeros n) = true := by
      have hself : (zeros n == zeros n) = true := by rw [zeros_beq_zeros, decide_eq_true rfl]
      rw [isIdleFactor, hself]
      simp
    have hextract : extract? .plus (nat 0) (zeros n) = none := by
      simp [extract?, commonFactor?_of_isZero isZero_nat_zero, hidle]
    rw [zeros_succ, factored, hextract]
    all_goals simp

/-- Each pass takes away the outermost zero, and does not look below it. -/
theorem onePass_zeros (limits : Limits) (n : Nat) : onePass limits (zeros (n + 1)) = zeros n := by
  have hrule := replacement?_zeros n
  rw [zeros_succ] at hrule ⊢
  exact refine_of_rule hrule (by rw [factored_zeros]; rfl)

theorem iterate_onePass_zeros (limits : Limits) (m n : Nat) :
    (onePass limits)^[m] (zeros (m + n)) = zeros n := by
  induction m with
  | zero => rw [Nat.zero_add]; rfl
  | succ m ih =>
    rw [Function.iterate_succ_apply, show m + 1 + n = m + n + 1 by omega, onePass_zeros, ih]

theorem not_isSettled_zeros (limits : Limits) (n : Nat) : ¬ IsSettled limits (zeros (n + 1)) := by
  rw [IsSettled, onePass_zeros, zeros_beq_zeros]
  simp

/-- With 257 zeros in front, the first reduction leaves one of them, and the second takes it away.
-/
theorem reduce_reduce_zeros :
    ¬ ((((zeros 257).reduce {}).expr.reduce {}).changed = false ∧
      (((zeros 257).reduce {}).expr.reduce {}).expr = ((zeros 257).reduce {}).expr) := by
  rintro ⟨hchanged, -⟩
  obtain ⟨n, hrun, hexpr, -⟩ := reduce_eq_iterate {} (zeros 257)
  have hzeros : (onePass {})^[n] (zeros 257) = zeros (256 - n + 1) := by
    have hle : n ≤ 256 := hrun.le
    have h := iterate_onePass_zeros {} n (256 - n + 1)
    rwa [show n + (256 - n + 1) = 257 by omega] at h
  rw [hexpr, hzeros] at hchanged
  exact not_isSettled_zeros {} _ (isSettled_of_reduce (by decide) hchanged)

end SymbolicCalculus.Expr
