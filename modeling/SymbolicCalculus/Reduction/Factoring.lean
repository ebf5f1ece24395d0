import SymbolicCalculus.Event
import SymbolicCalculus.Factor.Common
import SymbolicCalculus.Factor.Quotient

/-!
# Factoring

What the two sides of a sum, a difference or a quotient share is pulled out: `l + r` becomes
`(l/g + r/g)*g`, and `l/r` becomes `(l/g)/(r/g)`, where the divisions are carried out.
-/

namespace SymbolicCalculus.Expr

variable {α : Type} [Scalar α]

/-- Is the common factor of a node's operands left alone? A constant up to one is, and so is an
operand of a sum. -/
def isIdleFactor (op : Operator) (a b factor : Expr α) : Bool :=
  (match factor.constant? with
    | some k => decide (k ≤ Nat.cast 1)
    | none => false) ||
    (op != .divide && (factor == a || factor == b))

/-- The common factor of the operands of a node that can be pulled out, with the operands divided
by it. -/
def extract? (op : Operator) (a b : Expr α) : Option (Expr α × Expr α × Expr α) := do
  let factor ← commonFactor? a b
  if isIdleFactor op a b factor then none
  else
    let a' ← divideOut? a factor
    let b' ← divideOut? b factor
    return (factor, a', b')

/-- The expression with the common factor of its operands pulled out. -/
def factored (e : Expr α) : Revision α :=
  match e with
  | binary .times _ _ | binary .power _ _ => .unchanged e
  | binary op a b =>
    match extract? op a b with
    | none => .unchanged e
    | some (factor, a', b') =>
      let result := if op = .divide then quotient a' b' else product (binary op a' b') factor
      ⟨result, true, [.factored e factor]⟩
  | _ => .unchanged e

end SymbolicCalculus.Expr
