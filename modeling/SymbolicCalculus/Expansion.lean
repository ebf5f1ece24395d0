import SymbolicCalculus.Event
import SymbolicCalculus.Expr.Coefficient
import SymbolicCalculus.Limits

/-!
# Expansion

Products of sums multiplied out, which undoes what factoring does. A product is distributed over the
terms of an operand, or a factor is moved into a numerator, or two coefficients are merged; only if
none of this applies are its operands looked at.
-/

namespace SymbolicCalculus.Expr

variable {α : Type} [Mul α]

/-- A product with the first operand that is a sum or a difference multiplied out, or else with the
other operand moved into a quotient's numerator, or else with its coefficients merged. -/
def distribute? : Expr α → Expr α → Option (Expr α)
  | sum a b, e => some (sum (product a e) (product b e))
  | difference a b, e => some (difference (product a e) (product b e))
  | e, sum a b => some (sum (product e a) (product e b))
  | e, difference a b => some (difference (product e a) (product e b))
  | e, quotient a b => some (quotient (product e a) b)
  | quotient a b, e => some (quotient (product e a) b)
  | a, b => mergeCoefficients? a b

/-- One pass over a tree. A product that was distributed is not looked into. -/
def expandOnce : Expr α → Revision α
  | param p => .unchanged (param p)
  | const a => .unchanged (const a)
  | binary op a b =>
    match (if op = .times then distribute? a b else none) with
    | some result => ⟨result, true, [.distributed (binary op a b) result]⟩
    | none => a.expandOnce.join b.expandOnce (binary op)
  | neg a => a.expandOnce.wrap neg
  | call₀ f => .unchanged (call₀ f)
  | call₁ f x => x.expandOnce.wrap (call₁ f)
  | call₂ f x y => x.expandOnce.join y.expandOnce (call₂ f)

/-- So many more passes, where `changed` says whether an earlier one changed the tree. They end
early when a pass changes nothing. -/
def expandFrom (limits : Limits) (changed : Bool) : (passes : Nat) → Expr α → Revision α
  | 0, e => ⟨e, changed, [.expansionStopped limits.maxPasses e]⟩
  | passes + 1, e =>
    let next := e.expandOnce
    if next.changed then
      let rest := expandFrom limits true passes next.expr
      { rest with events := next.events ++ rest.events }
    else ⟨e, changed, []⟩

/-- Passes over a tree until nothing is left to multiply out. -/
def expand (limits : Limits) (e : Expr α) : Revision α :=
  expandFrom limits false limits.maxPasses e

end SymbolicCalculus.Expr
