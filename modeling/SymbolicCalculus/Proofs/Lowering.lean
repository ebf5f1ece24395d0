import SymbolicCalculus.Event

/-!
# Passes that lower a measure

A pass that leaves a tree as it is or lowers a measure of it cannot go on for ever. The revision of
a node lowers the measure if those of its parts do and the measure grows with the parts.
-/

namespace SymbolicCalculus.Revision

variable {α : Type} {μ : Expr α → Nat} {a b : Expr α} {r s : Revision α}

/-- The revision leaves the expression as it is and says so, or it lowers the measure. -/
inductive Lowers (μ : Expr α → Nat) (e : Expr α) (r : Revision α) : Prop where
  | unchanged (hchanged : r.changed = false) (hexpr : r.expr = e)
  | lowered (hchanged : r.changed = true) (hlt : μ r.expr < μ e)

theorem Lowers.le (h : Lowers μ a r) : μ r.expr ≤ μ a := by
  cases h with
  | unchanged _ hexpr => exact Nat.le_of_eq (congrArg μ hexpr)
  | lowered _ hlt => exact Nat.le_of_lt hlt

/-- Two revisions one after the other, of which one is a change. -/
theorem Lowers.trans {events : List (Event α)} (hr : Lowers μ a r) (hs : Lowers μ r.expr s)
    (h : r.changed = true ∨ s.changed = true) : Lowers μ a ⟨s.expr, true, events⟩ := by
  refine .lowered rfl ?_
  cases hr with
  | lowered _ hlt => exact Nat.lt_of_le_of_lt hs.le hlt
  | unchanged hunchanged hexpr =>
    cases hs with
    | lowered _ hlt => exact Nat.lt_of_lt_of_eq hlt (congrArg μ hexpr)
    | unchanged hunchanged' _ => simp [hunchanged, hunchanged'] at h

theorem Lowers.wrap {f : Expr α → Expr α} (h : Lowers μ a r)
    (hf : ∀ {a'}, μ a' < μ a → μ (f a') < μ (f a)) : Lowers μ (f a) (r.wrap f) := by
  cases h with
  | unchanged hchanged hexpr => exact .unchanged hchanged (congrArg f hexpr)
  | lowered hchanged hlt => exact .lowered hchanged (hf hlt)

theorem Lowers.join {f : Expr α → Expr α → Expr α} (ha : Lowers μ a r) (hb : Lowers μ b s)
    (hf : ∀ {a' b'}, μ a' ≤ μ a → μ b' ≤ μ b → μ a' < μ a ∨ μ b' < μ b →
      μ (f a' b') < μ (f a b)) :
    Lowers μ (f a b) (r.join s f) := by
  have hle := hb.le
  cases ha with
  | lowered hr hlt =>
    exact .lowered (by simp [Revision.join, hr]) (hf (Nat.le_of_lt hlt) hle (.inl hlt))
  | unchanged hr hexpr =>
    have hle' : μ r.expr ≤ μ a := Nat.le_of_eq (congrArg μ hexpr)
    cases hb with
    | unchanged hs hexpr' =>
      exact .unchanged (by simp [Revision.join, hr, hs]) (by simp [Revision.join, hexpr, hexpr'])
    | lowered hs hlt => exact .lowered (by simp [Revision.join, hs]) (hf hle' hle (.inr hlt))

end SymbolicCalculus.Revision
