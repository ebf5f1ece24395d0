import SymbolicCalculus.Expr.Basic

/-!
# Meaning

What an expression stands for in a structure of values, which need not be the type of its constants:
operations and calls may be undefined there, and an expression that needs an undefined one has no
value. Exact arithmetic, a field with arbitrary powers and the reals are such structures.
-/

namespace SymbolicCalculus

/-- A structure that expressions with constants in `α` have values in. -/
structure Interpretation (α β : Type) where
  param : String → Option β
  const : α → β
  neg : β → β
  operate : Operator → β → β → Option β
  call : Builtin → List β → Option β

namespace Expr

variable {α β : Type}

/-- The value of an expression, if all that it needs is defined. -/
def value? (I : Interpretation α β) : Expr α → Option β
  | param p => I.param p
  | const a => some (I.const a)
  | binary op a b => do
    let x ← a.value? I
    let y ← b.value? I
    I.operate op x y
  | neg a => (a.value? I).map I.neg
  | call₀ f => I.call f []
  | call₁ f x => do
    let x ← x.value? I
    I.call f [x]
  | call₂ f x y => do
    let x ← x.value? I
    let y ← y.value? I
    I.call f [x, y]

end Expr

namespace Interpretation

/-- Arithmetic on the constants themselves, in which an operation is defined when its result is a
number. -/
def arithmetic {α : Type} [Scalar α] (param : String → Option α)
    (call : Builtin → List α → Option α) : Interpretation α α where
  param := param
  const := id
  neg := (-·)
  operate := Operator.result?
  call := call

end Interpretation

end SymbolicCalculus
