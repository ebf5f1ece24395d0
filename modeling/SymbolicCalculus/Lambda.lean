import SymbolicCalculus.Derivative

/-!
# Functions of one parameter

A function `f(x) = body`. A body read from a text makes a function of `x` if it mentions `x`, and of
its leftmost parameter otherwise.
-/

namespace SymbolicCalculus

/-- A function of one parameter. -/
structure Lambda (α : Type) where
  parameter : String
  body : Expr α
  deriving DecidableEq

namespace Lambda

variable {α : Type}

/-- The function of the only parameter in a list. -/
def ofParameters (parameters : List String) (body : Expr α) :
    Except (Unsupported α) (Lambda α) :=
  match parameters with
  | [p] => .ok ⟨p, body⟩
  | _ => .error (.parameterCount parameters.length)

/-- The function that a body without a parameter list stands for. -/
def ofBody (body : Expr α) : Lambda α :=
  if body.dependsOn "x" then ⟨"x", body⟩ else ⟨body.firstParameter?.getD "x", body⟩

/-- The function with another body. -/
def withBody (f : Lambda α) (body : Expr α) : Lambda α :=
  { f with body }

/-- The value at a number. -/
def call [Arithmetic α] [Elementary α] (f : Lambda α) (v : α) : Except EvaluationError α :=
  f.body.evaluate f.parameter v

/-- The derivative by the function's parameter, not reduced. -/
def derivative [NatCast α] (f : Lambda α) : Except (Unsupported α) (Lambda α) :=
  (f.body.derivative f.parameter).map f.withBody

/-- The function as it is written. -/
def text [Numeral α] (f : Lambda α) : String :=
  let body := f.body.text
  let parameter := f.parameter
  s!"f({parameter}) = {body}"

end Lambda

end SymbolicCalculus
