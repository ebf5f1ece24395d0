import SymbolicCalculus.Expr.Basic

/-!
# Evaluation and substitution

The value of an expression when one parameter has a value, and an expression in place of a
parameter. Operations without a result are no errors here: they give whatever the arithmetic gives.
The only error is a parameter that has no value.
-/

namespace SymbolicCalculus

/-- Why an expression has no value. -/
inductive EvaluationError where
  | unboundParameter (name : String)
  deriving DecidableEq

namespace EvaluationError

def message : EvaluationError → String
  | unboundParameter name => s!"no value was provided for \"{name}\""

end EvaluationError

namespace Expr

variable {α : Type}

/-- The value where the parameter `p` has the value `v`. Operands are evaluated from left to right,
so the error is that of the leftmost parameter without a value. -/
def evaluate [Arithmetic α] [Elementary α] (p : String) (v : α) :
    Expr α → Except EvaluationError α
  | param q => if q = p then .ok v else .error (.unboundParameter q)
  | const a => .ok a
  | binary op a b => do
    let x ← a.evaluate p v
    let y ← b.evaluate p v
    return op.apply x y
  | neg a => do
    let x ← a.evaluate p v
    return -x
  | call₀ f => return f.evaluate []
  | call₁ f x => do
    let x ← x.evaluate p v
    return f.evaluate [x]
  | call₂ f x y => do
    let x ← x.evaluate p v
    let y ← y.evaluate p v
    return f.evaluate [x, y]

/-- The expression with `w` in place of the parameter `p`; the parameters of `w` stay. -/
def substitute (e : Expr α) (p : String) (w : Expr α) : Expr α :=
  match e with
  | param q => if q = p then w else param q
  | const a => const a
  | binary op a b => binary op (a.substitute p w) (b.substitute p w)
  | neg a => neg (a.substitute p w)
  | call₀ f => call₀ f
  | call₁ f x => call₁ f (x.substitute p w)
  | call₂ f x y => call₂ f (x.substitute p w) (y.substitute p w)

end Expr

end SymbolicCalculus
