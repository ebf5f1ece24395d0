import SymbolicCalculus.Proofs.DoubleArithmetic
import SymbolicCalculus.Proofs.NormalForm

/-!
# What a reduction reports

Three things tell how a reduction went: the trees of its passes, the flags that the passes return,
and the events. A pass says that it changed something exactly if an event of it says so, too
(`Expr.isReported_refine`). The events of a reduction are those of its passes in order, each
followed by the one that ends the pass, and a warning at the end if the passes ran out before the
tree settled (`Expr.events_reduceFrom`). Hence the log can be read off the trees, and the other way
around (`Expr.reduce_isLogged`).
-/

namespace SymbolicCalculus

variable {α : Type}

namespace Event

/-- Does the event say that a rule fired or that a common factor was pulled out? -/
def isRewriting : Event α → Bool
  | replaced _ _ | factored _ _ => true
  | _ => false

/-- The number of the pass that ended, and whether it changed the tree. -/
def finishedPass? : Event α → Option (Nat × Bool)
  | passFinished pass changed => some (pass, changed)
  | _ => none

/-- Does the event warn of a limit on passes? -/
def isWarning : Event α → Bool
  | reductionStopped _ _ | expansionStopped _ _ => true
  | _ => false

theorem finishedPass?_of_isRewriting {event : Event α} (h : event.isRewriting = true) :
    event.finishedPass? = none := by
  cases event <;> first | rfl | contradiction

theorem isWarning_of_isRewriting {event : Event α} (h : event.isRewriting = true) :
    event.isWarning = false := by
  cases event <;> first | rfl | contradiction

end Event

namespace Revision

/-- The passes that ended, with their numbers and whether they changed the tree. -/
def passes (r : Revision α) : List (Nat × Bool) :=
  r.events.filterMap Event.finishedPass?

/-- The warnings among the events. -/
def warnings (r : Revision α) : List (Event α) :=
  r.events.filter Event.isWarning

/-! ## The events of a pass -/

/-- Every event says that something was rewritten, and there is one if the flag is set. -/
structure IsReported (r : Revision α) : Prop where
  isRewriting : ∀ event ∈ r.events, event.isRewriting = true
  changed_iff : r.changed = true ↔ r.events ≠ []

variable {r s : Revision α}

theorem IsReported.unchanged (e : Expr α) : IsReported (.unchanged e) :=
  ⟨List.forall_mem_nil _, by simp [Revision.unchanged]⟩

theorem IsReported.wrap (h : IsReported r) (f : Expr α → Expr α) : IsReported (r.wrap f) :=
  ⟨h.isRewriting, h.changed_iff⟩

theorem IsReported.join (hr : IsReported r) (hs : IsReported s)
    (f : Expr α → Expr α → Expr α) : IsReported (r.join s f) where
  isRewriting := List.forall_mem_append.mpr ⟨hr.isRewriting, hs.isRewriting⟩
  changed_iff := by
    simp only [Revision.join, Bool.or_eq_true, hr.changed_iff, hs.changed_iff, ne_eq,
      List.append_eq_nil_iff]
    exact (not_and_or).symm

/-- A flag that is set after events that say why. -/
theorem IsReported.of_changed {e : Expr α} {events : List (Event α)}
    (h : ∀ event ∈ events, event.isRewriting = true) (hne : events ≠ []) :
    IsReported ⟨e, true, events⟩ :=
  ⟨h, iff_of_true rfl hne⟩

/-- Two revisions one after the other, of which one is a change. -/
theorem IsReported.trans (hr : IsReported r) (hs : IsReported s)
    (h : r.changed = true ∨ s.changed = true) :
    IsReported ⟨s.expr, true, r.events ++ s.events⟩ := by
  refine .of_changed (List.forall_mem_append.mpr ⟨hr.isRewriting, hs.isRewriting⟩) ?_
  rw [hr.changed_iff, hs.changed_iff] at h
  rw [ne_eq, List.append_eq_nil_iff]
  exact not_and_or.mpr h

theorem IsReported.changed_iff_exists (h : IsReported r) :
    r.changed = true ↔ ∃ event ∈ r.events, event.isRewriting = true := by
  rw [h.changed_iff]
  constructor
  · intro hne
    obtain ⟨event, hmem⟩ := List.exists_mem_of_ne_nil _ hne
    exact ⟨event, hmem, h.isRewriting event hmem⟩
  · rintro ⟨event, hmem, -⟩
    exact List.ne_nil_of_mem hmem

end Revision

namespace Expr

open Revision (IsReported)

theorem isReported_reviseParts {part : Expr α → Revision α}
    (hpart : ∀ x, IsReported (part x)) (e : Expr α) : IsReported (e.reviseParts part) := by
  cases e with
  | param p => exact .unchanged _
  | const k => exact .unchanged _
  | binary op a b => exact (hpart a).join (hpart b) _
  | neg a => exact (hpart a).wrap _
  | call₀ f => exact .unchanged _
  | call₁ f x => exact (hpart x).wrap _
  | call₂ f x y => exact (hpart x).join (hpart y) _

variable [Scalar α] {limits : Limits} {e : Expr α}

theorem isReported_factored (e : Expr α) : IsReported e.factored := by
  rcases factored_cases e with heq | ⟨_, _, _, _, _, _, -, -, -, -, heq⟩
  · rw [heq]
    exact .unchanged e
  · rw [heq]
    exact .of_changed (by simp [Event.isRewriting]) (List.cons_ne_nil _ _)

theorem isPassInvariant_isReported : IsPassInvariant fun (_ : Expr α) r => IsReported r where
  unchanged := .unchanged
  rule _ := .of_changed (by simp [Event.isRewriting]) (List.cons_ne_nil _ _)
  parts := isReported_reviseParts
  factored _ := isReported_factored _
  trans := .trans

/-- **The flag of a pass and its events agree.** -/
theorem isReported_refine (levels : Nat) (e : Expr α) : IsReported (e.refine levels) :=
  isPassInvariant_isReported.refine levels e

/-! ## The events of all passes -/

/-- The run of which the first pass is made already. -/
theorem IsRun.of_succ {passes n : Nat} (h : IsRun limits (passes + 1) (n + 1) e) :
    IsRun limits passes n (onePass limits e) where
  le := Nat.le_of_succ_le_succ h.le
  not_settled m hm := h.not_settled (m + 1) (by omega)
  settled hn := h.settled (by omega)

/-- The events of each pass that changes the tree, then those of the one that does not, or a
warning. -/
theorem events_reduceFrom {passes n : Nat} (h : IsRun limits passes n e) (first : Nat)
    (changed : Bool) :
    (e.reduceFrom limits first changed passes).events =
      ((List.range n).flatMap fun k => (((onePass limits)^[k] e).reduceOnce limits).events ++
        [.passFinished (first + k) true]) ++
      if n < passes then
        (((onePass limits)^[n] e).reduceOnce limits).events ++ [.passFinished (first + n) false]
      else [.reductionStopped limits.maxPasses ((onePass limits)^[n] e)] := by
  induction passes generalizing first changed e n with
  | zero =>
    obtain rfl : n = 0 := Nat.le_zero.mp h.le
    rfl
  | succ passes ih =>
    rw [reduceFrom]
    dsimp only
    cases n with
    | zero =>
      have hsettled : ((e.reduceOnce limits).expr == e) = true := h.settled (Nat.succ_pos _)
      rw [if_pos hsettled]
      simp
    | succ n =>
      have hunsettled : ¬ ((e.reduceOnce limits).expr == e) = true :=
        h.not_settled 0 (Nat.succ_pos _)
      rw [if_neg hunsettled]
      dsimp only
      rw [show (e.reduceOnce limits).expr = onePass limits e from rfl, ih h.of_succ,
        List.range_succ_eq_map, List.flatMap_cons, List.flatMap_map]
      simp only [Function.iterate_succ_apply, Function.iterate_zero_apply, Nat.add_zero,
        Nat.succ_eq_add_one, Nat.add_lt_add_iff_right, List.append_assoc, List.cons_append,
        List.nil_append, Nat.add_assoc, Nat.add_comm 1]

/-- No event of a pass ends it, and none is a warning. -/
theorem events_reduceOnce (limits : Limits) (e : Expr α) :
    (e.reduceOnce limits).passes = [] ∧ (e.reduceOnce limits).warnings = [] := by
  have hevents := (isReported_refine (limits.maxDepth + 1) e).isRewriting
  constructor
  · exact List.filterMap_eq_nil_iff.mpr fun event hmem =>
      Event.finishedPass?_of_isRewriting (hevents event hmem)
  · exact List.filter_eq_nil_iff.mpr fun event hmem => by
      simp [Event.isWarning_of_isRewriting (hevents event hmem)]

section run

variable {n : Nat}

theorem passes_reduce (h : IsRun limits limits.maxPasses n e) :
    (e.reduce limits).passes = ((List.range n).map fun k => (k, true)) ++
      if n < limits.maxPasses then [(n, false)] else [] := by
  have hpass (k : Nat) := (events_reduceOnce limits ((onePass limits)^[k] e)).1
  unfold Revision.passes at hpass ⊢
  rw [reduce, events_reduceFrom h, List.filterMap_append, List.filterMap_flatMap]
  simp only [List.filterMap_append, hpass, List.nil_append]
  by_cases hlt : n < limits.maxPasses
  · simp [hlt, hpass, Event.finishedPass?, List.map_eq_flatMap]
  · simp [hlt, Event.finishedPass?, List.map_eq_flatMap]

/-- As many passes change the tree as there are before it settles. -/
theorem countP_passes_reduce (h : IsRun limits limits.maxPasses n e) :
    (e.reduce limits).passes.countP Prod.snd = n := by
  rw [passes_reduce h, List.countP_append, List.countP_map]
  by_cases hlt : n < limits.maxPasses <;> simp [hlt, Function.comp_def]

theorem warnings_reduce (h : IsRun limits limits.maxPasses n e) :
    (e.reduce limits).warnings =
      if n < limits.maxPasses then []
      else [.reductionStopped limits.maxPasses ((onePass limits)^[n] e)] := by
  have hpass (k : Nat) := (events_reduceOnce limits ((onePass limits)^[k] e)).2
  unfold Revision.warnings at hpass ⊢
  rw [reduce, events_reduceFrom h, List.filter_append, List.filter_flatMap]
  have hnone : ((List.range n).flatMap fun _ => ([] : List (Event α))) = [] := by simp
  simp only [List.filter_append, hpass, List.nil_append]
  by_cases hlt : n < limits.maxPasses
  · simp [hlt, hpass, Event.isWarning]
  · rw [if_neg hlt, if_neg hlt]
    exact congrArg (· ++ _) hnone

theorem events_reduce (h : IsRun limits limits.maxPasses n e) :
    (e.reduce limits).events =
      ((e.reduce limits).passes.flatMap fun pass =>
        (((onePass limits)^[pass.1] e).reduceOnce limits).events ++
          [.passFinished pass.1 pass.2]) ++ (e.reduce limits).warnings := by
  rw [passes_reduce h, warnings_reduce h, reduce, events_reduceFrom h, List.flatMap_append,
    List.flatMap_map]
  by_cases hlt : n < limits.maxPasses
  · simp [hlt]
  · simp [hlt]

/-- A pass changes the tree unless it is the one after which the reduction ends. -/
theorem changed_iff_of_mem_passes (h : IsRun limits limits.maxPasses n e) {pass : Nat × Bool}
    (hmem : pass ∈ (e.reduce limits).passes) :
    pass.2 = true ↔ ¬ IsSettled limits ((onePass limits)^[pass.1] e) := by
  rw [passes_reduce h, List.mem_append] at hmem
  rcases hmem with hmem | hmem
  · obtain ⟨k, hk, rfl⟩ := List.mem_map.mp hmem
    exact iff_of_true rfl (h.not_settled k (List.mem_range.mp hk))
  · split at hmem
    · next hlt =>
      obtain rfl := List.mem_singleton.mp hmem
      exact iff_of_false Bool.false_ne_true (not_not_intro (h.settled hlt))
    · contradiction

end run

/-- A pass after which the tree is another one reports why. -/
theorem exists_isRewriting_of_not_isSettled [ReflBEq α] (h : ¬ IsSettled limits e) :
    ∃ event ∈ (e.reduceOnce limits).events, event.isRewriting = true := by
  refine (isReported_refine (limits.maxDepth + 1) e).changed_iff_exists.mp ?_
  by_contra hchanged
  rw [Bool.not_eq_true] at hchanged
  refine h ?_
  show ((e.reduceOnce limits).expr == e) = true
  rw [reduceOnce, refine_of_unchanged hchanged]
  exact BEq.rfl

/-! ## The log of a reduction -/

/-- The log of a reduction, its result and the trees after 0, 1, 2, … passes tell the same story. -/
structure IsLogged (limits : Limits) (e : Expr α) (r : Revision α) : Prop where
  /-- The passes are numbered from zero. -/
  numbered : r.passes.map Prod.fst = List.range r.passes.length
  /-- All of them but possibly the last changed the tree. -/
  changed_of_mem_dropLast : ∀ pass ∈ r.passes.dropLast, pass.2 = true
  changed_iff_of_mem : ∀ pass ∈ r.passes,
    pass.2 = true ↔ ¬ IsSettled limits ((onePass limits)^[pass.1] e)
  last_unchanged_iff : (∃ pass ∈ r.passes.getLast?, pass.2 = false) ↔ r.warnings = []
  warned_iff : r.warnings ≠ [] ↔
    r.passes.length = limits.maxPasses ∧ ∀ pass ∈ r.passes, pass.2 = true
  warnings_eq : r.warnings = [] ∨ r.warnings = [.reductionStopped limits.maxPasses r.expr]
  /-- The result is the tree after as many passes as changed it. -/
  expr_eq : r.expr = (onePass limits)^[r.passes.countP Prod.snd] e
  changed_iff : r.changed = true ↔ ∃ pass ∈ r.passes, pass.2 = true
  /-- The events of each pass stand before the one that ends it. -/
  events_eq : r.events = (r.passes.flatMap fun pass =>
    (((onePass limits)^[pass.1] e).reduceOnce limits).events ++
      [.passFinished pass.1 pass.2]) ++ r.warnings
  /-- A pass that changed the tree tells why. -/
  rewritten : ∀ pass ∈ r.passes, pass.2 = true →
    ∃ event ∈ (((onePass limits)^[pass.1] e).reduceOnce limits).events, event.isRewriting = true

theorem isLogged_reduce [ReflBEq α] (limits : Limits) (e : Expr α) :
    IsLogged limits e (e.reduce limits) := by
  obtain ⟨n, hrun, hexpr, hchanged⟩ := reduce_eq_iterate limits e
  have hcount := countP_passes_reduce hrun
  have hflag : (e.reduce limits).changed = true ↔
      ∃ pass ∈ (e.reduce limits).passes, pass.2 = true := by
    rw [← List.countP_pos_iff, hcount, hchanged, decide_eq_true_iff]
  have hrewritten : ∀ pass ∈ (e.reduce limits).passes, pass.2 = true →
      ∃ event ∈ (((onePass limits)^[pass.1] e).reduceOnce limits).events,
        event.isRewriting = true := fun pass hmem hpass =>
    exists_isRewriting_of_not_isSettled ((changed_iff_of_mem_passes hrun hmem).mp hpass)
  have hpasses := passes_reduce hrun
  have hwarnings := warnings_reduce hrun
  by_cases hlt : n < limits.maxPasses
  · rw [if_pos hlt] at hpasses hwarnings
    exact {
      numbered := by simp [hpasses, List.range_succ, Function.comp_def]
      changed_of_mem_dropLast := by simp [hpasses]
      changed_iff_of_mem := fun _ => changed_iff_of_mem_passes hrun
      last_unchanged_iff := by simp [hpasses, hwarnings]
      warned_iff := by simp [hpasses, hwarnings]
      warnings_eq := .inl hwarnings
      expr_eq := by rw [hexpr, hcount]
      changed_iff := hflag
      events_eq := events_reduce hrun
      rewritten := hrewritten }
  · rw [if_neg hlt] at hpasses hwarnings
    rw [List.append_nil] at hpasses
    have heq : n = limits.maxPasses := Nat.le_antisymm hrun.le (Nat.le_of_not_lt hlt)
    have hall : ∀ pass ∈ (e.reduce limits).passes, pass.2 = true := by simp [hpasses]
    exact {
      numbered := by simp [hpasses, Function.comp_def]
      changed_of_mem_dropLast := fun pass hmem => hall pass (List.mem_of_mem_dropLast hmem)
      changed_iff_of_mem := fun _ => changed_iff_of_mem_passes hrun
      last_unchanged_iff := by simp [hpasses, hwarnings]
      warned_iff := by simp [hpasses, hwarnings, heq]
      warnings_eq := .inr (by rw [hwarnings, hexpr])
      expr_eq := by rw [hexpr, hcount]
      changed_iff := hflag
      events_eq := events_reduce hrun
      rewritten := hrewritten }

/-- **A reduction and its log tell the same story.** The passes of a reduction are numbered from
zero, and all but possibly the last changed the tree; the last one did not exactly if there is no
warning, and there is one exactly if as many passes as the limit allows all changed the tree. The
result is the tree after as many passes as are reported to have changed it, and the reduction says
that it changed something exactly if one of them did. For any tree, a pass emits an event of a rule
that fired or a factor that was pulled out exactly if its flag is set. -/
theorem reduce_isLogged (limits : Limits) (e : Expr Binary64) :
    IsLogged limits e (e.reduce limits) ∧
      ∀ t : Expr Binary64, (t.reduceOnce limits).changed = true ↔
        ∃ event ∈ (t.reduceOnce limits).events, event.isRewriting = true :=
  ⟨isLogged_reduce limits e, fun t =>
    (isReported_refine (limits.maxDepth + 1) t).changed_iff_exists⟩

/-- Two zeros are gone after two passes; if no third pass is allowed to find this out, there is a
warning. -/
example :
    ((zeros 2).reduce {}).passes = [(0, true), (1, true), (2, false)] ∧
      ((zeros 2).reduce { maxPasses := 2 }).passes = [(0, true), (1, true)] ∧
        ((zeros 2).reduce { maxPasses := 2 }).warnings = [.reductionStopped 2 (param "x")] := by
  refine ⟨?_, ?_, ?_⟩ <;> rfl

end Expr

end SymbolicCalculus
