import SymbolicCalculus.Expr.Basic

/-!
# Multiplicative chains

An expression as a product of powers. Nested products are flattened, a power with a positive whole
exponent repeats its base, a negation is a factor of minus one, and equal bases are merged. Anything
else is a factor by itself. `occurrences` counts how often a base divides an expression, which sees
more than the chain does: it looks into the terms of sums and into numerators.
-/

namespace SymbolicCalculus

/-- A factor of a chain, `base ^ exponent`. -/
structure Factor (α : Type) where
  base : Expr α
  exponent : α

namespace Factor

variable {α : Type} [Scalar α]

/-- The factor as an expression. -/
def toExpr (factor : Factor α) : Expr α :=
  if factor.exponent == Nat.cast 1 then factor.base
  else .power factor.base (.const factor.exponent)

/-- The chain with one more factor, which is merged with the first that has an equal base. -/
def insert (base : Expr α) (exponent : α) : List (Factor α) → List (Factor α)
  | [] => [⟨base, exponent⟩]
  | factor :: rest =>
    if factor.base == base then ⟨factor.base, factor.exponent + exponent⟩ :: rest
    else factor :: insert base exponent rest

end Factor

namespace Expr

variable {α : Type} [Scalar α]

/-- The chain `factors` with the factors of an expression to a power after it. -/
def appendFactors (exponent : α) (factors : List (Factor α)) : Expr α → List (Factor α)
  | product a b => b.appendFactors exponent (a.appendFactors exponent factors)
  | neg a => a.appendFactors exponent (Factor.insert (const (-Nat.cast 1)) exponent factors)
  | power a (const k) =>
    if Scalar.isPositiveWhole k then a.appendFactors (exponent * k) factors
    else Factor.insert (power a (const k)) exponent factors
  | e => Factor.insert e exponent factors

/-- The multiplicative chain of an expression. -/
def chain (e : Expr α) : List (Factor α) :=
  e.appendFactors (Nat.cast 1) []

/-- The magnitude of the product of the constants in the chain. -/
def coefficient (e : Expr α) : α :=
  e.chain.foldl (fun product factor =>
    match factor.base with
    | const k => product * Arithmetic.power (Scalar.magnitude k) factor.exponent
    | _ => product) (Nat.cast 1)

/-- How often a base divides an expression: as often as it divides the factors of a product
together, and only as often as it divides both terms of a sum. -/
def occurrences (base : Expr α) (e : Expr α) : α :=
  if e == base then Nat.cast 1
  else
    match e with
    | product a b => occurrences base a + occurrences base b
    | sum a b | difference a b => min (occurrences base a) (occurrences base b)
    | quotient a _ => occurrences base a
    | power a (const k) =>
      if Scalar.isPositiveWhole k then k * occurrences base a else Nat.cast 0
    | neg a => occurrences base a
    | _ => Nat.cast 0

/-- How often the base of a factor divides an expression, up to the factor's exponent. -/
def containment (factor : Factor α) (e : Expr α) : α :=
  let times := min (occurrences factor.base e) factor.exponent
  if Nat.cast 0 < times then times else Nat.cast 0

end Expr

end SymbolicCalculus
