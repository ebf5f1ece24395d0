import SymbolicCalculus.Lambda

/-!
# Events

What a run reports: each rule that fired, each common factor pulled out, each pass, each product
multiplied out, limits that were reached, and the texts and functions of a differentiation.
-/

namespace SymbolicCalculus

/-- Something that happened in a run. -/
inductive Event (α : Type) where
  /-- A rule turned a node into `result`. -/
  | replaced (rule : String) (result : Expr α)
  /-- The common factor `factor` was pulled out of `e`. -/
  | factored (e factor : Expr α)
  | passFinished (pass : Nat) (changed : Bool)
  /-- A reduction ended with `e` because of the limit on passes. -/
  | reductionStopped (maxPasses : Nat) (e : Expr α)
  /-- The product `e` was multiplied out. -/
  | distributed (e result : Expr α)
  /-- An expansion ended with `e` because of the limit on passes. -/
  | expansionStopped (maxPasses : Nat) (e : Expr α)
  | normalized (text normal : String)
  | differentiated (function derivative : Lambda α) (changed : Bool)

/-- What becomes of an expression: whether any rule fired, and what happened. -/
structure Revision (α : Type) where
  expr : Expr α
  changed : Bool
  events : List (Event α)

namespace Revision

variable {α : Type}

/-- The expression as it is. -/
def unchanged (e : Expr α) : Revision α :=
  ⟨e, false, []⟩

/-- The revision of the expression around a revised one. -/
def wrap (r : Revision α) (f : Expr α → Expr α) : Revision α :=
  { r with expr := f r.expr }

/-- Two operands revised side by side, the left one first. -/
def join (r s : Revision α) (f : Expr α → Expr α → Expr α) : Revision α :=
  ⟨f r.expr s.expr, r.changed || s.changed, r.events ++ s.events⟩

end Revision

end SymbolicCalculus
