import SymbolicCalculus.Expansion
import SymbolicCalculus.Formula.Bracketing
import SymbolicCalculus.Formula.Parser
import SymbolicCalculus.Lambda
import SymbolicCalculus.Reduction.Pass

/-!
# From a text to a function and its derivative

A formula is read by normalizing it, parsing it and reducing it; a function is differentiated and
its derivative reduced. Each run reports what happened, also when it fails.
-/

namespace SymbolicCalculus

/-- Why a run failed. -/
inductive Failure (α : Type) where
  | parse (error : ParseError)
  | unsupported (construct : Unsupported α)
  | evaluation (error : EvaluationError)
  deriving DecidableEq

namespace Failure

def message {α : Type} [Numeral α] : Failure α → String
  | parse error => error.message
  | unsupported construct => construct.message
  | evaluation error => error.message

end Failure

/-- What happened in a run, and its result. -/
structure Traced (α β : Type) where
  events : List (Event α)
  result : Except (Failure α) β

namespace Traced

variable {α β : Type}

instance : Monad (Traced α) where
  pure b := ⟨[], .ok b⟩
  bind x f :=
    match x.result with
    | .ok b => ⟨x.events ++ (f b).events, (f b).result⟩
    | .error e => ⟨x.events, .error e⟩

/-- One event. -/
def emit (event : Event α) : Traced α Unit :=
  ⟨[event], .ok ()⟩

/-- The result of a parse. -/
def ofParse (result : Except ParseError β) : Traced α β :=
  ⟨[], result.mapError .parse⟩

/-- The result of an operation that not every construct has. -/
def ofSupported (result : Except (Unsupported α) β) : Traced α β :=
  ⟨[], result.mapError .unsupported⟩

/-- The result of an evaluation. -/
def ofEvaluation (result : Except EvaluationError β) : Traced α β :=
  ⟨[], result.mapError .evaluation⟩

/-- A revised expression, and whether it changed. -/
def ofRevision (r : Revision α) : Traced α (Expr α × Bool) :=
  ⟨r.events, .ok (r.expr, r.changed)⟩

end Traced

namespace Formula

variable {α : Type} [Scalar α] [Numeral α]

/-- The expression that a formula stands for. -/
def read (maxDepth : Nat) (text : String) : Except ParseError (Expr α) :=
  parse maxDepth (parenthesize text)

/-- The function that a text with all its parentheses stands for. -/
def parseFunction (maxDepth : Nat) (text : String) : Except ParseError (Lambda α) :=
  (parse maxDepth text).map Lambda.ofBody

/-- The function that a formula stands for, reduced. -/
def readFunction (limits : Limits) (text : String) : Traced α (Lambda α) := do
  let normal := normalize text
  Traced.emit (.normalized text normal)
  let f ← Traced.ofParse (parseFunction limits.maxDepth normal)
  let (body, _) ← Traced.ofRevision (f.body.reduce limits)
  return f.withBody body

end Formula

/-- A function with its derivative. -/
structure Derivation (α : Type) where
  function : Lambda α
  derivative : Lambda α
  deriving DecidableEq

namespace Derivation

variable {α : Type}

/-- The function with its derivative, reduced. -/
def of [Scalar α] (limits : Limits) (f : Lambda α) : Traced α (Derivation α) := do
  let f' ← Traced.ofSupported f.derivative
  let (body, changed) ← Traced.ofRevision (f'.body.reduce limits)
  let f' := f'.withBody body
  Traced.emit (.differentiated f f' changed)
  return ⟨f, f'⟩

/-- The derivative with its own derivative. -/
def next [Scalar α] (limits : Limits) (d : Derivation α) : Traced α (Derivation α) :=
  of limits d.derivative

/-- The function that a formula stands for, with its derivative. -/
def ofFormula [Scalar α] [Numeral α] (limits : Limits) (text : String) :
    Traced α (Derivation α) := do
  let f ← Formula.readFunction limits text
  of limits f

/-- The function and, on a line of its own, the derivative with a prime. -/
def text [Numeral α] (d : Derivation α) : String :=
  let function := d.function.text
  let derivative := d.derivative.text
  s!"{function}\n{derivative}'"

end Derivation

end SymbolicCalculus
