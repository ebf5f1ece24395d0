import SymbolicCalculus.Expr.Basic

/-!
# Merging coefficients

A constant times a product that has a constant operand is a product with one constant.
-/

namespace SymbolicCalculus.Expr

variable {α : Type} [Mul α]

/-- A product with a constant operand, times a constant. -/
def scaleProduct? (k : α) : Expr α → Option (Expr α)
  | product (const k') u => some (product (const (k * k')) u)
  | product u (const k') => some (product (const (k * k')) u)
  | _ => none

/-- The product of two expressions, of which one is a constant and the other a product with a
constant operand, with one constant in place of the two. -/
def mergeCoefficients? : Expr α → Expr α → Option (Expr α)
  | const _, const _ => none
  | const k, e => scaleProduct? k e
  | e, const k => scaleProduct? k e
  | _, _ => none

end SymbolicCalculus.Expr
