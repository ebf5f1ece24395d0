import SymbolicCalculus.Proofs.Passes
import SymbolicCalculus.Proofs.Rewriting

/-!
# Trees that a pass leaves as they are

A pass that reports no change returns the tree that it was given (`refine_of_unchanged`), and it
reports none exactly if every node that it reaches is irreducible: no rule matches the node, and no
factor can be pulled out of it (`refine_changed_eq_false_iff`). Hence such a tree has no redundant
operation, such as a product by one or a double negation, down to the depth that a pass reaches
(`reduceOnce_changed_eq_false_iff`).
-/

namespace SymbolicCalculus

namespace Expr

variable {α : Type}

/-! ## Nodes of a tree -/

/-- The parts that a node is put together from. -/
def parts : Expr α → List (Expr α)
  | param _ | const _ | call₀ _ => []
  | binary _ a b => [a, b]
  | neg a => [a]
  | call₁ _ x => [x]
  | call₂ _ x y => [x, y]

/-- The nodes that lie so many levels below the root. -/
def nodesAt : Nat → Expr α → List (Expr α)
  | 0, e => [e]
  | depth + 1, e => e.parts.flatMap (nodesAt depth)

theorem parts_of_isLeaf {e : Expr α} (h : e.isLeaf = true) : e.parts = [] := by
  cases e <;> simp_all [isLeaf, parts]

section parts

variable {part : Expr α → Revision α} {e : Expr α}

/-- The revision of the parts reports a change if that of any part does. -/
theorem changed_reviseParts :
    (e.reviseParts part).changed = e.parts.any fun x => (part x).changed := by
  cases e <;> simp [reviseParts, parts, Revision.unchanged, Revision.join, Revision.wrap]

theorem reviseParts_of_unchanged (h : ∀ x ∈ e.parts, part x = .unchanged x) :
    e.reviseParts part = .unchanged e := by
  cases e <;> simp_all [reviseParts, parts, Revision.unchanged, Revision.join, Revision.wrap]

end parts

variable [Scalar α]

/-- No rule matches the node, and no common factor can be pulled out of it. -/
structure IsIrreducible (e : Expr α) : Prop where
  no_rule : e.replacement? = none
  no_factor : e.factored = .unchanged e

/-- All nodes of the first `levels` levels are irreducible, apart from constants and parameters. -/
def IsNormal (levels : Nat) (e : Expr α) : Prop :=
  ∀ depth < levels, ∀ x ∈ e.nodesAt depth, x.isLeaf = false → x.IsIrreducible

theorem isNormal_zero (e : Expr α) : e.IsNormal 0 :=
  fun _ hdepth => absurd hdepth (Nat.not_lt_zero _)

/-- One level more is the root and that many levels of each of its parts. -/
theorem isNormal_succ {levels : Nat} {e : Expr α} :
    e.IsNormal (levels + 1) ↔
      (e.isLeaf = false → e.IsIrreducible) ∧ ∀ part ∈ e.parts, part.IsNormal levels := by
  constructor
  · intro h
    refine ⟨h 0 (Nat.zero_lt_succ _) e (List.mem_singleton_self e), ?_⟩
    intro part hpart depth hdepth x hx
    exact h (depth + 1) (by omega) x (List.mem_flatMap.mpr ⟨part, hpart, hx⟩)
  · rintro ⟨hroot, hparts⟩ depth hdepth x hx
    cases depth with
    | zero =>
      rw [nodesAt, List.mem_singleton] at hx
      rw [hx]
      exact hroot
    | succ depth =>
      obtain ⟨part, hpart, hx⟩ := List.mem_flatMap.mp hx
      exact hparts part hpart depth (by omega) x hx

theorem isNormal_of_isLeaf {levels : Nat} {e : Expr α} (h : e.isLeaf = true) :
    e.IsNormal levels := by
  cases levels with
  | zero => exact isNormal_zero e
  | succ levels => simp [isNormal_succ, h, parts_of_isLeaf h]

/-! ## What a pass reports -/

theorem factored_of_unchanged {e : Expr α} (h : e.factored.changed = false) :
    e.factored = .unchanged e := by
  rcases factored_cases e with heq | ⟨_, _, _, _, _, _, -, -, -, -, heq⟩
  · exact heq
  · rw [heq] at h
    contradiction

/-- A node reports a change if reducing it does, or pulling a factor out of what it is reduced to.
-/
theorem changed_refine_succ (levels : Nat) {e : Expr α} (hleaf : e.isLeaf = false) :
    (e.refine (levels + 1)).changed =
      ((e.reduceNode (refine levels)).changed ||
        (e.reduceNode (refine levels)).expr.factored.changed) := by
  by_cases hpulled : (e.reduceNode (refine levels)).expr.factored.changed = true
  · rw [refine, if_neg (by simp [hleaf])]
    simp only [hpulled, if_true, Bool.or_true]
  · rw [Bool.not_eq_true] at hpulled
    rw [refine_of_not_changed hleaf hpulled, hpulled, Bool.or_false]

/-- A pass that reports no change returns the same tree, and reports nothing else either. -/
theorem refine_of_unchanged {levels : Nat} {e : Expr α} (h : (e.refine levels).changed = false) :
    e.refine levels = .unchanged e := by
  induction levels generalizing e with
  | zero => rfl
  | succ levels ih =>
    by_cases hleaf : e.isLeaf = true
    · exact refine_of_isLeaf hleaf
    · rw [Bool.not_eq_true] at hleaf
      rw [changed_refine_succ levels hleaf, Bool.or_eq_false_iff] at h
      rw [refine_of_not_changed hleaf h.2]
      cases hrule : e.replacement? with
      | some found =>
        rw [reduceNode_of_rule _ hrule] at h
        exact absurd h.1 (by simp)
      | none =>
        rw [reduceNode_of_no_rule _ hrule] at h ⊢
        rw [changed_reviseParts, List.any_eq_false] at h
        refine reviseParts_of_unchanged fun x hx => ih ?_
        simpa using h.1 x hx

/-- **A pass reports no change exactly for a normal form** of as many levels as it reaches. -/
theorem refine_changed_eq_false_iff (levels : Nat) (e : Expr α) :
    (e.refine levels).changed = false ↔ e.IsNormal levels := by
  induction levels generalizing e with
  | zero => exact iff_of_true rfl (isNormal_zero e)
  | succ levels ih =>
    by_cases hleaf : e.isLeaf = true
    · rw [refine_of_isLeaf hleaf]
      exact iff_of_true rfl (isNormal_of_isLeaf hleaf)
    · rw [Bool.not_eq_true] at hleaf
      rw [changed_refine_succ levels hleaf, isNormal_succ]
      cases hrule : e.replacement? with
      | some found =>
        rw [reduceNode_of_rule _ hrule, Bool.true_or]
        refine iff_of_false (by simp) fun h => ?_
        rw [(h.1 hleaf).no_rule] at hrule
        contradiction
      | none =>
        rw [reduceNode_of_no_rule _ hrule, Bool.or_eq_false_iff]
        have hparts : (e.reviseParts (refine levels)).changed = false ↔
            ∀ part ∈ e.parts, part.IsNormal levels := by
          simp [changed_reviseParts, ← ih]
        -- The factor is looked for in the node with its parts revised, which is the node itself
        -- if none of them changes.
        have hsame : (e.reviseParts (refine levels)).changed = false →
            e.reviseParts (refine levels) = .unchanged e := by
          intro h
          refine reviseParts_of_unchanged fun x hx => refine_of_unchanged ?_
          exact (ih x).mpr (hparts.mp h x hx)
        constructor
        · rintro ⟨hchanged, hpulled⟩
          rw [hsame hchanged] at hpulled
          exact ⟨fun _ => ⟨hrule, factored_of_unchanged hpulled⟩, hparts.mp hchanged⟩
        · rintro ⟨hroot, hnormal⟩
          have hchanged := hparts.mpr hnormal
          rw [hsame hchanged]
          refine ⟨rfl, ?_⟩
          show e.factored.changed = false
          rw [(hroot hleaf).no_factor]
          rfl

/-! ## Redundant operations -/

/-- Operations that say nothing: two constants whose result is a number, zero as a term, a factor
or what is taken away, one as a factor or a divisor, a difference or a quotient of the same, a
negation of a negation, and a power of a power. -/
inductive IsRedundant : Expr α → Prop where
  | constants {op : Operator} {k l : α} (h : Scalar.isDefined op k l = true) :
    IsRedundant (binary op (const k) (const l))
  | zeroPlus {a b : Expr α} (h : a.isZero = true) : IsRedundant (sum a b)
  | plusZero {a b : Expr α} (h : b.isZero = true) : IsRedundant (sum a b)
  | minusZero {a b : Expr α} (h : b.isZero = true) : IsRedundant (difference a b)
  | minusItself {a b : Expr α} (h : (a == b) = true) : IsRedundant (difference a b)
  | zeroTimes {a b : Expr α} (h : a.isZero = true) : IsRedundant (product a b)
  | timesZero {a b : Expr α} (h : b.isZero = true) : IsRedundant (product a b)
  | oneTimes {a b : Expr α} (h : a.isOne = true) : IsRedundant (product a b)
  | timesOne {a b : Expr α} (h : b.isOne = true) : IsRedundant (product a b)
  | overOne {a b : Expr α} (h : b.isOne = true) : IsRedundant (quotient a b)
  | overItself {a b : Expr α} (h : (a == b) = true) (hb : b.isZero = false) :
    IsRedundant (quotient a b)
  | negatedTwice (a : Expr α) : IsRedundant (neg (neg a))
  | powerOfPower (a m n : Expr α) : IsRedundant (power (power a m) n)

section rules

variable {op : Operator} {a b : Expr α}

/-- If none is found, then none of the rules for the operator matches. -/
theorem replace?_eq_none (h : (binary op a b).replacement? = none) :
    ∀ rule ∈ (Rule.forOperator op : List (Rule α)), rule.replace? a b = none := by
  intro rule hmem
  have hnone := List.findSome?_eq_none_iff.mp h rule hmem
  simpa using hnone

theorem isDefined_of_no_rule {k l : α}
    (h : (binary op (const k) (const l)).replacement? = none) :
    Scalar.isDefined op k l = false := by
  have hmem : ∃ rule ∈ (Rule.forOperator op : List (Rule α)), rule.replace? = Rule.fold? op := by
    cases op <;>
      simp [Rule.forOperator, Rule.sums, Rule.differences, Rule.products, Rule.quotients,
        Rule.powers]
  obtain ⟨rule, hrule, hfold⟩ := hmem
  have hnone := replace?_eq_none h rule hrule
  rw [hfold] at hnone
  simpa [Rule.fold?, Operator.result?] using hnone

theorem sum_of_no_rule (h : (sum a b).replacement? = none) :
    a.isZero = false ∧ b.isZero = false := by
  have hrules := replace?_eq_none h
  simp only [Rule.forOperator, Rule.sums, List.forall_mem_cons] at hrules
  obtain ⟨ha, hb, -⟩ := hrules
  simp_all

theorem difference_of_no_rule (h : (difference a b).replacement? = none) :
    b.isZero = false ∧ (a == b) = false := by
  have hrules := replace?_eq_none h
  simp only [Rule.forOperator, Rule.differences, List.forall_mem_cons] at hrules
  obtain ⟨hb, -, -, hsame, -⟩ := hrules
  simp_all

theorem product_of_no_rule (h : (product a b).replacement? = none) :
    a.isZero = false ∧ b.isZero = false ∧ a.isOne = false ∧ b.isOne = false := by
  have hrules := replace?_eq_none h
  simp only [Rule.forOperator, Rule.products, List.forall_mem_cons] at hrules
  obtain ⟨hzero, hone, hone', -⟩ := hrules
  simp_all

theorem quotient_of_no_rule (h : (quotient a b).replacement? = none) :
    b.isOne = false ∧ ((a == b) = true → b.isZero = true) := by
  have hrules := replace?_eq_none h
  simp only [Rule.forOperator, Rule.quotients, List.forall_mem_cons] at hrules
  obtain ⟨hone, -, -, hsame, -⟩ := hrules
  simp_all

theorem not_power_of_no_rule {m n : Expr α} : (power (power a m) n).replacement? ≠ none := by
  intro h
  have hrules := replace?_eq_none h
  simp only [Rule.forOperator, Rule.powers, List.forall_mem_cons] at hrules
  obtain ⟨-, -, -, hpower, -⟩ := hrules
  contradiction

/-- Once a constant times a parameter is not a product by zero or one and cannot be folded, none of
the later rules for products needs to be tried. -/
theorem replace?_const_param (k : α) (p : String) :
    ∀ rule ∈ (Rule.products : List (Rule α)).drop 4,
      rule.replace? (const k) (param p) = none ∧ rule.replace? (param p) (const k) = none := by
  simp [Rule.products, mergeCoefficients?, scaleProduct?]

end rules

/-- Some rule matches each redundant operation. -/
theorem not_isRedundant_of_no_rule {e : Expr α} (h : e.replacement? = none) :
    ¬ e.IsRedundant := by
  intro hredundant
  cases hredundant with
  | constants hdefined => simp [isDefined_of_no_rule h] at hdefined
  | zeroPlus hzero | plusZero hzero => simp [sum_of_no_rule h] at hzero
  | minusZero hzero => simp [difference_of_no_rule h] at hzero
  | minusItself hsame => simp [difference_of_no_rule h] at hsame
  | zeroTimes hzero | timesZero hzero => simp [product_of_no_rule h] at hzero
  | oneTimes hone | timesOne hone => simp [product_of_no_rule h] at hone
  | overOne hone => simp [quotient_of_no_rule h] at hone
  | overItself hsame hzero => simp [(quotient_of_no_rule h).2 hsame] at hzero
  | negatedTwice a => contradiction
  | powerOfPower a m n => exact not_power_of_no_rule h

theorem isLeaf_of_isRedundant {e : Expr α} (h : e.IsRedundant) : e.isLeaf = false := by
  cases h <;> rfl

/-- **An unchanged pass means a normal form.** A pass reports no change exactly if at every node
down to the limit on the depth, apart from constants and parameters, no rule matches and factoring
leaves the node as it is. Then it returns the same tree, and no node down to that depth is a
redundant operation. -/
theorem reduceOnce_changed_eq_false_iff (limits : Limits) (e : Expr α) :
    ((e.reduceOnce limits).changed = false ↔
        ∀ depth ≤ limits.maxDepth, ∀ x ∈ e.nodesAt depth, x.isLeaf = false →
          x.replacement? = none ∧ x.factored = .unchanged x) ∧
      ((e.reduceOnce limits).changed = false →
        (e.reduceOnce limits).expr = e ∧
          ∀ depth ≤ limits.maxDepth, ∀ x ∈ e.nodesAt depth, ¬ x.IsRedundant) := by
  have hnormal := refine_changed_eq_false_iff (limits.maxDepth + 1) e
  refine ⟨?_, ?_⟩
  · rw [reduceOnce, hnormal]
    constructor
    · intro h depth hdepth x hx hleaf
      obtain ⟨hrule, hfactor⟩ := h depth (Nat.lt_succ_of_le hdepth) x hx hleaf
      exact ⟨hrule, hfactor⟩
    · intro h depth hdepth x hx hleaf
      obtain ⟨hrule, hfactor⟩ := h depth (Nat.le_of_lt_succ hdepth) x hx hleaf
      exact ⟨hrule, hfactor⟩
  · intro h
    rw [reduceOnce] at h ⊢
    refine ⟨congrArg Revision.expr (refine_of_unchanged h), ?_⟩
    intro depth hdepth x hx hredundant
    have hirreducible := hnormal.mp h depth (Nat.lt_succ_of_le hdepth) x hx
      (isLeaf_of_isRedundant hredundant)
    exact not_isRedundant_of_no_rule hirreducible.no_rule hredundant

/-- A pass leaves `3*sin(x + y)^2` as it is. -/
theorem reduceOnce_changed_eq_false_of_sine :
    let e : Expr Binary64 :=
      .product (nat 3) (.power (.call₁ .sine (.sum (.param "x") (.param "y"))) (nat 2))
    (e.reduceOnce {}).changed = false ∧ (e.reduceOnce {}).expr = e ∧
      ∀ depth ≤ 512, ∀ x ∈ e.nodesAt depth, ¬ x.IsRedundant := by
  intro e
  have h : (e.reduceOnce {}).changed = false := by decide
  exact ⟨h, (reduceOnce_changed_eq_false_iff {} e).2 h⟩

end Expr

end SymbolicCalculus
