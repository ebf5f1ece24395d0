import SymbolicCalculus.Exact
import SymbolicCalculus.Proofs.Lowering
import SymbolicCalculus.Proofs.Passes
import SymbolicCalculus.Proofs.Rewriting

/-!
# Which expressions settle

Each rule lowers the weight of the node that it rewrites (`weight_lt_of_rewrites`), and so does each
pass that changes a tree without pulling out a common factor (`lowers_refine`). Pulling out a factor
may make a tree larger. Passes one after the other therefore settle exactly if from some pass on
none of them pulls out a factor (`settles_iff`).
-/

namespace SymbolicCalculus

/-- Does the event say that a common factor was pulled out? -/
def Event.isFactoring {α : Type} : Event α → Bool
  | factored _ _ => true
  | _ => false

namespace Revision

variable {α : Type} {r s : Revision α}

/-- Was a common factor pulled out? -/
def pullsFactor (r : Revision α) : Bool :=
  r.events.any Event.isFactoring

@[simp] theorem pullsFactor_join (f : Expr α → Expr α → Expr α) :
    (r.join s f).pullsFactor = (r.pullsFactor || s.pullsFactor) :=
  List.any_append

end Revision

/-- What the operator itself weighs. A quotient weighs enough to pay for the power that a rule puts
below it, and a difference more than the sum that it may become. -/
def Operator.weight : Operator → Nat
  | times => 1
  | plus | power => 2
  | minus => 3
  | divide => 4

namespace Expr

variable {α : Type}

/-- A weight that every rule lowers. -/
def weight : Expr α → Nat
  | param _ | const _ | call₀ _ => 1
  | binary op a b => op.weight + a.weight + b.weight
  | neg a => a.weight + 2
  | call₁ _ x => x.weight + 1
  | call₂ _ x y => x.weight + y.weight + 1

variable {part : Expr α → Revision α} {e : Expr α}

theorem operator_weight_pos (op : Operator) : 0 < op.weight := by
  cases op <;> decide

theorem weight_pos (e : Expr α) : 0 < e.weight := by
  induction e with
  | binary op a b iha ihb =>
    simp only [weight]
    omega
  | _ => simp [weight]

theorem weight_binary_le {op : Operator} {a b a' b' : Expr α} (ha : a'.weight ≤ a.weight)
    (hb : b'.weight ≤ b.weight) : (binary op a' b').weight ≤ (binary op a b).weight := by
  simp only [weight]
  omega

/-- If the parts of a node lower their weight unless a factor is pulled out of one, so does the
node. -/
theorem lowers_reviseParts
    (hpart : ∀ x, (part x).pullsFactor = false → Revision.Lowers weight x (part x))
    (h : (e.reviseParts part).pullsFactor = false) :
    Revision.Lowers weight e (e.reviseParts part) := by
  cases e with
  | param p => exact .unchanged rfl rfl
  | const k => exact .unchanged rfl rfl
  | call₀ f => exact .unchanged rfl rfl
  | binary op a b =>
    obtain ⟨ha, hb⟩ : (part a).pullsFactor = false ∧ (part b).pullsFactor = false := by
      simpa [reviseParts] using h
    refine (hpart a ha).join (hpart b hb) fun ha' hb' hlt => ?_
    simp only [weight]
    omega
  | neg a => exact (hpart a h).wrap (Nat.add_lt_add_right · 2)
  | call₁ f x => exact (hpart x h).wrap (Nat.add_lt_add_right · 1)
  | call₂ f x y =>
    obtain ⟨hx, hy⟩ : (part x).pullsFactor = false ∧ (part y).pullsFactor = false := by
      simpa [reviseParts] using h
    refine (hpart x hx).join (hpart y hy) fun hx' hy' hlt => ?_
    simp only [weight]
    omega

variable [Scalar α] {limits : Limits}

/-- Each rule lowers the weight of the node. -/
theorem weight_lt_of_rewrites {e r : Expr α} (h : Rewrites e r) : r.weight < e.weight := by
  cases h with
  | doubled a b =>
    have hb := weight_pos b
    simp only [weight, Operator.weight]
    omega
  | timesReciprocal a b c =>
    have hb := weight_pos b
    simp only [weight, Operator.weight]
    omega
  | timesReciprocal' a b c =>
    have hb := weight_pos b
    simp only [weight, Operator.weight]
    omega
  | powerOverBase a n c =>
    have hc := weight_pos c
    simp only [weight, Operator.weight]
    omega
  | merged k l h | merged' k l h =>
    rcases h with rfl | rfl
    all_goals
      simp only [weight, Operator.weight]
      omega
  | _ =>
    -- The rest are operands of the node, or weigh less by their operators alone.
    grind [weight, Operator.weight, weight_pos, operator_weight_pos]

/-! ## Passes without factoring -/

theorem pullsFactor_factored {e : Expr α} (h : e.factored.changed = true) :
    e.factored.pullsFactor = true := by
  rcases factored_cases e with heq | ⟨_, _, _, _, _, _, -, -, -, -, heq⟩
  · rw [heq] at h
    contradiction
  · rw [heq]
    rfl

theorem isPassInvariant_lowers : IsPassInvariant fun (e : Expr α) r =>
    r.pullsFactor = false → Revision.Lowers weight e r where
  unchanged _ _ := .unchanged rfl rfl
  rule h _ := .lowered rfl (weight_lt_of_rewrites (rewrites_of_replacement? h))
  parts hpart _ := lowers_reviseParts hpart
  factored hpulled h := by
    rw [pullsFactor_factored hpulled] at h
    contradiction
  trans hr hs hchanged h := by
    simp only [Revision.pullsFactor, List.any_append, Bool.or_eq_false_iff] at h
    exact (hr h.1).trans (hs h.2) hchanged

/-- A pass that pulls out no factor leaves a tree as it is and says so, or lowers its weight. -/
theorem lowers_refine (levels : Nat) (e : Expr α) (h : (e.refine levels).pullsFactor = false) :
    Revision.Lowers weight e (e.refine levels) :=
  isPassInvariant_lowers.refine levels e h

/-! ## Passes one after the other -/

/-- After no more passes than the tree weighs, one settles or pulls out a factor. -/
theorem exists_settled_or_pulls [ReflBEq α] (limits : Limits) (e : Expr α) :
    ∃ n ≤ e.weight, IsSettled limits ((onePass limits)^[n] e) ∨
      (((onePass limits)^[n] e).reduceOnce limits).pullsFactor = true := by
  induction hw : e.weight using Nat.strongRecOn generalizing e with
  | ind w ih =>
    by_cases hpulls : (e.reduceOnce limits).pullsFactor = true
    · exact ⟨0, Nat.zero_le _, .inr hpulls⟩
    · have hnone : (e.reduceOnce limits).pullsFactor = false := by simpa using hpulls
      rcases lowers_refine _ e hnone with ⟨-, hexpr⟩ | ⟨-, hlt⟩
      · refine ⟨0, Nat.zero_le _, .inl ?_⟩
        show ((e.reduceOnce limits).expr == e) = true
        rw [show (e.reduceOnce limits).expr = e from hexpr]
        exact BEq.rfl
      · obtain ⟨n, hn, h⟩ := ih _ (hw ▸ hlt) (onePass limits e) rfl
        exact ⟨n + 1, by have : (onePass limits e).weight < e.weight := hlt; omega, h⟩

/-- A settled tree stays the same in each later pass, where equal trees are the same. -/
theorem IsSettled.iterate [LawfulBEq α] {e : Expr α} (h : IsSettled limits e) (n : Nat) :
    (onePass limits)^[n] e = e :=
  Function.iterate_fixed (eq_of_beq h) n

/-- **Passes settle exactly if they stop factoring.** In exact arithmetic and for any limit on the
depth, the passes from an expression come to a tree that the next one leaves the same exactly if
from some pass on none of them pulls out a common factor before the tree is settled. -/
theorem settles_iff (limits : Limits) (e : Expr Rat) :
    (∃ n, IsSettled limits ((onePass limits)^[n] e)) ↔
      ∃ N, ∀ n ≥ N, IsSettled limits ((onePass limits)^[n] e) ∨
        (((onePass limits)^[n] e).reduceOnce limits).pullsFactor = false := by
  constructor
  · rintro ⟨N, hsettled⟩
    refine ⟨N, fun n hn => .inl ?_⟩
    obtain ⟨m, rfl⟩ := Nat.exists_eq_add_of_le' hn
    rw [Function.iterate_add_apply, hsettled.iterate]
    exact hsettled
  · rintro ⟨N, hlate⟩
    obtain ⟨n, -, h⟩ := exists_settled_or_pulls limits ((onePass limits)^[N] e)
    rw [← Function.iterate_add_apply] at h
    -- A pass so late pulls out a factor only from a tree that is settled.
    rcases h with hsettled | hpulls
    · exact ⟨n + N, hsettled⟩
    · rcases hlate (n + N) (Nat.le_add_left _ _) with hsettled | hnone
      · exact ⟨n + N, hsettled⟩
      · rw [hnone] at hpulls
        contradiction

end Expr

end SymbolicCalculus
