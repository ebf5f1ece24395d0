import SymbolicCalculus.Limits
import SymbolicCalculus.Reduction.Factoring
import SymbolicCalculus.Reduction.Rule

/-!
# Reduction

A pass over a tree replaces each node by what the first rule that matches makes of it, or goes on to
its parts if none does. Then a common factor is pulled out of the node, and if there is one the node
is reduced once more. `Expr.reduce` repeats passes until the tree stays the same.
-/

namespace SymbolicCalculus.Expr

variable {α : Type} [Scalar α]

/-- The parts of a node revised, the left ones first. -/
def reviseParts (part : Expr α → Revision α) : Expr α → Revision α
  | param p => .unchanged (param p)
  | const a => .unchanged (const a)
  | binary op a b => (part a).join (part b) (binary op)
  | neg a => (part a).wrap neg
  | call₀ f => .unchanged (call₀ f)
  | call₁ f x => (part x).wrap (call₁ f)
  | call₂ f x y => (part x).join (part y) (call₂ f)

/-- A node replaced by the first rule that matches, or else its parts revised by themselves. -/
def reduceNode (part : Expr α → Revision α) (e : Expr α) : Revision α :=
  match e.replacement? with
  | some (rule, result) => ⟨result, true, [.replaced rule result]⟩
  | none => e.reviseParts part

/-- A pass over the first `levels` levels of a tree. -/
def refine : (levels : Nat) → Expr α → Revision α
  | 0, e => .unchanged e
  | levels + 1, e =>
    if e.isLeaf then .unchanged e
    else
      let reduced := e.reduceNode (refine levels)
      let pulled := reduced.expr.factored
      if pulled.changed then
        let again := pulled.expr.reduceNode (refine levels)
        ⟨again.expr, true, reduced.events ++ pulled.events ++ again.events⟩
      else reduced

/-- One pass over a tree. -/
def reduceOnce (limits : Limits) (e : Expr α) : Revision α :=
  e.refine (limits.maxDepth + 1)

/-- So many more passes, of which the first has the number `pass`, where `changed` says whether an
earlier one changed the tree. They end early when a pass returns the same tree. -/
def reduceFrom (limits : Limits) (pass : Nat) (changed : Bool) : (passes : Nat) → Expr α →
    Revision α
  | 0, e => ⟨e, changed, [.reductionStopped limits.maxPasses e]⟩
  | passes + 1, e =>
    let next := e.reduceOnce limits
    if next.expr == e then ⟨e, changed, next.events ++ [.passFinished pass false]⟩
    else
      let rest := reduceFrom limits (pass + 1) true passes next.expr
      { rest with events := next.events ++ .passFinished pass true :: rest.events }

/-- Passes over a tree until it stays the same. -/
def reduce (limits : Limits) (e : Expr α) : Revision α :=
  reduceFrom limits 0 false limits.maxPasses e

end SymbolicCalculus.Expr
