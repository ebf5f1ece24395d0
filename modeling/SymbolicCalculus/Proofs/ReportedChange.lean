import SymbolicCalculus.Proofs.EndlessFactoring
import SymbolicCalculus.Proofs.FactoringSteps
import SymbolicCalculus.Proofs.NormalForm

/-!
# When a reported change shows

A pass says whether a rule fired or a common factor was pulled out, which is not always seen in the
tree: `0/0/y*4 / (0/0/z*6)` stays the same when two is taken from each side, since it goes into the
zero (`reduceOnce_reports_same`). Each rule that fires takes at least one off the weight of the
tree, and a factor that is pulled out of a quotient adds nothing, so only sums and differences can
pay for the rules that fire (`weight_add_ruleCount_le`). A pass that reports a change therefore
returns another tree, unless it pulls a factor out of a node that keeps its operator and where
factoring pays for every rule that fires (`reduceOnce_differs`).
-/

namespace SymbolicCalculus

/-! ## What a pass costs -/

/-- Does the event say that a rule fired? -/
def Event.isReplacement {α : Type} : Event α → Bool
  | replaced _ _ => true
  | _ => false

/-- By how much a common factor makes the node heavier that it is pulled out of, if this is no
quotient. -/
def Event.weightAdded {α : Type} [Scalar α] : Event α → Nat
  | factored (.binary op a b) _ =>
    if op = .divide then 0
    else (Expr.binary op a b).factored.expr.weight - (Expr.binary op a b).weight
  | _ => 0

namespace Revision

variable {α : Type} {r s : Revision α}

/-- How many rules fired. -/
def ruleCount (r : Revision α) : Nat :=
  r.events.countP Event.isReplacement

@[simp] theorem ruleCount_join (f : Expr α → Expr α → Expr α) :
    (r.join s f).ruleCount = r.ruleCount + s.ruleCount :=
  List.countP_append

variable [Scalar α]

/-- By how much the factors that were pulled out of sums and differences made these heavier. -/
def weightAdded (r : Revision α) : Nat :=
  (r.events.map Event.weightAdded).sum

@[simp] theorem weightAdded_join (f : Expr α → Expr α → Expr α) :
    (r.join s f).weightAdded = r.weightAdded + s.weightAdded := by
  simp [weightAdded, join]

/-- The rules that fired are paid for by the weight that went, or that was added before. -/
def IsPaid (e : Expr α) (r : Revision α) : Prop :=
  r.expr.weight + r.ruleCount ≤ e.weight + r.weightAdded

variable {a b e : Expr α}

theorem IsPaid.unchanged (e : Expr α) : IsPaid e (.unchanged e) :=
  Nat.le_refl _

theorem IsPaid.wrap {f : Expr α → Expr α} {n : Nat} (h : IsPaid a r)
    (hf : ∀ x, (f x).weight = x.weight + n) : IsPaid (f a) (r.wrap f) := by
  have hle : r.expr.weight + r.ruleCount ≤ a.weight + r.weightAdded := h
  show (f r.expr).weight + r.ruleCount ≤ (f a).weight + r.weightAdded
  rw [hf, hf]
  omega

theorem IsPaid.join {f : Expr α → Expr α → Expr α} {n : Nat} (ha : IsPaid a r) (hb : IsPaid b s)
    (hf : ∀ x y, (f x y).weight = x.weight + y.weight + n) : IsPaid (f a b) (r.join s f) := by
  unfold IsPaid at ha hb ⊢
  rw [ruleCount_join, weightAdded_join]
  show (f r.expr s.expr).weight + _ ≤ _
  rw [hf, hf]
  omega

/-- Two revisions one after the other. -/
theorem IsPaid.trans (hr : IsPaid e r) (hs : IsPaid r.expr s) :
    IsPaid e ⟨s.expr, true, r.events ++ s.events⟩ := by
  have hrules : (⟨s.expr, true, r.events ++ s.events⟩ : Revision α).ruleCount =
      r.ruleCount + s.ruleCount := List.countP_append
  have hadded : (⟨s.expr, true, r.events ++ s.events⟩ : Revision α).weightAdded =
      r.weightAdded + s.weightAdded := by simp [weightAdded]
  unfold IsPaid at hr hs ⊢
  rw [hrules, hadded]
  show s.expr.weight + _ ≤ _
  omega

end Revision

namespace Expr

variable {α : Type} [Scalar α]

/-! ## Quotients weigh no more -/

theorem weight_lowerPower?_le {inner q : Expr α} {k n : α} (h : lowerPower? inner k n = some q) :
    q.weight ≤ (power inner (const k)).weight := by
  obtain ⟨-, ⟨-, rfl⟩ | ⟨-, rfl⟩ | ⟨-, rfl⟩⟩ := lowerPower?_cases h
  · simp only [weight, Operator.weight]
    omega
  · simp only [weight, Operator.weight]
    omega
  · simp only [weight, Nat.le_refl]

theorem weight_divideByPower?_le {base e q : Expr α} {n : α}
    (h : divideByPower? base e n = some q) : q.weight ≤ e.weight := by
  replace h := powerQuotient_of_divideByPower? h
  induction h with
  | rest => exact Nat.le_refl _
  | @self e => exact weight_pos e
  | product _ _ _ iha ihb => exact weight_binary_le iha ihb
  | sum _ _ _ iha ihb | difference _ _ _ iha ihb => exact weight_binary_le iha ihb
  | quotient _ _ iha => exact weight_binary_le iha (Nat.le_refl _)
  | lowered _ _ _ hq => exact weight_lowerPower?_le hq
  | power _ _ _ _ _ ih => exact weight_binary_le ih (Nat.le_refl _)
  | neg _ _ ih => exact Nat.add_le_add_right ih 2

theorem weight_divideByConstant?_le {e q : Expr α} {k : α}
    (h : divideByConstant? k e = some q) : q.weight ≤ e.weight := by
  replace h := constantQuotient_of_divideByConstant? h
  induction h with
  | one => exact Nat.le_refl _
  | const => exact Nat.le_refl _
  | left _ iha => exact weight_binary_le iha (Nat.le_refl _)
  | right _ ihb => exact weight_binary_le (Nat.le_refl _) ihb
  | sum _ _ iha ihb | difference _ _ iha ihb => exact weight_binary_le iha ihb
  | quotient _ iha => exact weight_binary_le iha (Nat.le_refl _)
  | sign => exact Nat.le_add_right _ 2
  | neg _ ih => exact Nat.add_le_add_right ih 2

theorem weight_divideByFactor?_le {e q : Expr α} {factor : Factor α}
    (h : divideByFactor? e factor = some q) : q.weight ≤ e.weight := by
  unfold divideByFactor? at h
  split at h
  · exact weight_divideByConstant?_le h
  · exact weight_divideByPower?_le h

theorem weight_foldlM_divideByFactor?_le {factors : List (Factor α)} {e q : Expr α}
    (h : factors.foldlM divideByFactor? e = some q) : q.weight ≤ e.weight := by
  induction factors generalizing e with
  | nil => rw [Option.some.inj h]
  | cons factor rest ih =>
    rw [List.foldlM_cons] at h
    obtain ⟨e', he', h⟩ := Option.bind_eq_some_iff.mp h
    exact Nat.le_trans (ih h) (weight_divideByFactor?_le he')

/-- What is left of an expression weighs no more than the expression. -/
theorem weight_divideOut?_le {e divisor q : Expr α} (h : divideOut? e divisor = some q) :
    q.weight ≤ e.weight :=
  weight_foldlM_divideByFactor?_le h

/-! ## The rules that fire in a pass -/

section passes

variable {part : Expr α → Revision α}

/-- Pulling out a factor fires no rule, and adds no weight to a quotient. -/
theorem isPaid_factored (e : Expr α) : Revision.IsPaid e e.factored := by
  rcases factored_cases e with heq | ⟨op, a, b, g, a', b', he, -, -, hextract, heq⟩
  · rw [heq]
    exact .unchanged e
  · by_cases hop : op = .divide
    · obtain ⟨-, ha', hb'⟩ := divideOut?_of_extract? hextract
      rw [heq, if_pos hop, he, hop]
      exact weight_binary_le (weight_divideOut?_le ha') (weight_divideOut?_le hb')
    · have hadded : e.factored.weightAdded = e.factored.expr.weight - e.weight := by
        rw [heq, Revision.weightAdded, List.map_singleton, List.sum_singleton, ← heq, he,
          Event.weightAdded, if_neg hop]
      have hrules : e.factored.ruleCount = 0 := by
        rw [heq]
        rfl
      rw [Revision.IsPaid, hrules, hadded]
      omega

theorem isPaid_reviseParts (hpart : ∀ x, Revision.IsPaid x (part x)) (e : Expr α) :
    Revision.IsPaid e (e.reviseParts part) := by
  cases e with
  | param p => exact .unchanged _
  | const k => exact .unchanged _
  | call₀ f => exact .unchanged _
  | binary op a b =>
    refine (hpart a).join (hpart b) (n := op.weight) fun x y => ?_
    simp only [weight]
    omega
  | neg a => exact (hpart a).wrap fun x => rfl
  | call₁ f x => exact (hpart x).wrap fun x => rfl
  | call₂ f x y => exact (hpart x).join (hpart y) fun x y => rfl

theorem isPassInvariant_isPaid : IsPassInvariant (α := α) Revision.IsPaid where
  unchanged := .unchanged
  rule h := weight_lt_of_rewrites (rewrites_of_replacement? h)
  parts := isPaid_reviseParts
  factored _ := isPaid_factored _
  trans hr hs _ := hr.trans hs

/-- **Every rule that fires is paid for.** After a pass, the tree weighs less by at least as much as
there were rules that fired, apart from the weight that sums and differences took on when a factor
was pulled out of them. -/
theorem weight_add_ruleCount_le (levels : Nat) (e : Expr α) :
    (e.refine levels).expr.weight + (e.refine levels).ruleCount ≤
      e.weight + (e.refine levels).weightAdded :=
  isPassInvariant_isPaid.refine levels e

end passes

/-! ## Trees that differ -/

/-- The operator at the root, if there is one. -/
def operator? : Expr α → Option Operator
  | binary op _ _ => some op
  | _ => none

/-- Equal trees weigh the same. -/
theorem weight_eq_of_beq {a b : Expr α} (h : (a == b) = true) : a.weight = b.weight := by
  replace h : sameAs a b = true := h
  induction a generalizing b <;> cases b <;> simp_all [sameAs, weight] <;> grind

theorem operator?_eq_of_beq {a b : Expr α} (h : (a == b) = true) : a.operator? = b.operator? := by
  replace h : sameAs a b = true := h
  cases a <;> cases b <;> simp_all [sameAs, operator?]

/-- If some part is revised to another one, so is the node. -/
theorem beq_eq_false_of_part {part : Expr α → Revision α} {e x : Expr α} (hx : x ∈ e.parts)
    (h : ((part x).expr == x) = false) : ((e.reviseParts part).expr == e) = false := by
  replace h : sameAs (part x).expr x = false := h
  show sameAs _ e = false
  cases e with
  | param p => contradiction
  | const k => contradiction
  | call₀ f => contradiction
  | binary op a b | call₂ f a b =>
    simp only [parts, List.mem_cons, List.not_mem_nil, or_false] at hx
    rcases hx with rfl | rfl <;> simp [reviseParts, Revision.join, sameAs, h]
  | neg a | call₁ f a =>
    obtain rfl := List.mem_singleton.mp hx
    simp [reviseParts, Revision.wrap, sameAs, h]

theorem beq_eq_false_of_weight_lt {a b : Expr α} (h : a.weight < b.weight) : (a == b) = false := by
  rw [Bool.eq_false_iff]
  intro hsame
  exact Nat.ne_of_lt h (weight_eq_of_beq hsame)

/-- Pulling a factor out of a node leaves the node as it is exactly if the node is a quotient and
both of its sides stay the same when they are divided by the factor. -/
theorem factored_beq_iff (e : Expr α) :
    (e.factored.changed = true ∧ (e.factored.expr == e) = true) ↔
      ∃ l r g l' r', e = quotient l r ∧ extract? .divide l r = some (g, l', r') ∧
        (l' == l) = true ∧ (r' == r) = true := by
  constructor
  · rintro ⟨hchanged, hsame⟩
    rcases factored_cases e with heq | ⟨op, l, r, g, l', r', rfl, hop, -, hextract, heq⟩
    · rw [heq] at hchanged
      contradiction
    · rw [heq] at hsame
      by_cases hdivide : op = .divide
      · subst hdivide
        have hsides : ((Operator.divide == Operator.divide && l' == l) && r' == r) = true := hsame
        simp only [Bool.and_eq_true] at hsides
        exact ⟨l, r, g, l', r', rfl, hextract, hsides.1.2, hsides.2⟩
      · rw [if_neg hdivide] at hsame
        exact absurd (Option.some.inj (operator?_eq_of_beq hsame)) hop.symm
  · rintro ⟨l, r, g, l', r', rfl, hextract, hl, hr⟩
    have heq : (quotient l r).factored =
        ⟨quotient l' r', true, [.factored (quotient l r) g]⟩ := by
      rw [factored, hextract]
      all_goals simp
    rw [heq]
    refine ⟨rfl, ?_⟩
    show (Operator.divide == Operator.divide && l' == l && r' == r) = true
    rw [hl, hr]
    rfl

/-! ## Passes that show -/

/-- If a factor is pulled out of the node in a pass that goes so many levels below it, then another
operator comes to stand there, or more rules fire within it than factoring pays for. -/
def ShowsFactoring (levels : Nat) (e : Expr α) : Prop :=
  (e.reduceNode (refine levels)).expr.factored.changed = true →
    (e.refine (levels + 1)).expr.operator? ≠ e.operator? ∨
      (e.refine (levels + 1)).weightAdded < (e.refine (levels + 1)).ruleCount

instance (levels : Nat) (e : Expr α) : Decidable (ShowsFactoring levels e) :=
  inferInstanceAs (Decidable (_ → _))

theorem ShowsFactoring.beq_eq_false {levels : Nat} {e : Expr α} (h : e.ShowsFactoring levels)
    (hpulled : (e.reduceNode (refine levels)).expr.factored.changed = true) :
    ((e.refine (levels + 1)).expr == e) = false := by
  rcases h hpulled with hoperator | hrules
  · rw [Bool.eq_false_iff]
    exact fun hsame => hoperator (operator?_eq_of_beq hsame)
  · have hle := weight_add_ruleCount_le (levels + 1) e
    exact beq_eq_false_of_weight_lt (by omega)

/-- A pass that reports a change changes the tree, if each factor shows where it is pulled out. -/
theorem refine_differs (levels : Nat) {e : Expr α} (hchanged : (e.refine levels).changed = true)
    (hshows : ∀ depth < levels, ∀ x ∈ e.nodesAt depth, x.ShowsFactoring (levels - 1 - depth)) :
    ((e.refine levels).expr == e) = false := by
  induction levels generalizing e with
  | zero => contradiction
  | succ levels ih =>
    by_cases hleaf : e.isLeaf = true
    · rw [refine_of_isLeaf hleaf] at hchanged
      contradiction
    · by_cases hpulled : (e.reduceNode (refine levels)).expr.factored.changed = true
      · have hroot := hshows 0 (Nat.zero_lt_succ _) e (List.mem_singleton_self e)
        exact ShowsFactoring.beq_eq_false hroot hpulled
      · rw [Bool.not_eq_true] at hleaf hpulled
        rw [refine_of_not_changed hleaf hpulled] at hchanged ⊢
        cases hrule : e.replacement? with
        | some found =>
          rw [reduceNode_of_rule _ hrule]
          exact beq_eq_false_of_weight_lt
            (weight_lt_of_rewrites (rewrites_of_replacement? hrule))
        | none =>
          rw [reduceNode_of_no_rule _ hrule] at hchanged ⊢
          rw [changed_reviseParts, List.any_eq_true] at hchanged
          obtain ⟨x, hx, hxchanged⟩ := hchanged
          refine beq_eq_false_of_part hx (ih hxchanged fun depth hdepth y hy => ?_)
          have hbelow := hshows (depth + 1) (by omega) y (List.mem_flatMap.mpr ⟨x, hx, hy⟩)
          rwa [show levels + 1 - 1 - (depth + 1) = levels - 1 - depth by omega] at hbelow

end Expr

end SymbolicCalculus
