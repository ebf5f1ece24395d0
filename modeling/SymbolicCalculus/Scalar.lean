import SymbolicCalculus.Operator
import SymbolicCalculus.Builtin

/-!
# Numbers that an expression can be about

Expressions are trees over any type of numbers. What the rules do with constants, what a formula's
text needs of them and what evaluation needs of them are separate interfaces: `Scalar`, which
extends plain `Arithmetic`, `Numeral` and `Elementary`. Doubles have all of them. Rational numbers
have `Scalar` with exact tests, so that a rule can be reasoned about without rounding.
-/

namespace SymbolicCalculus

/-- The operations that expressions are built from. -/
class Arithmetic (α : Type) extends NatCast α, Add α, Sub α, Mul α, Div α, Neg α where
  power : α → α → α

/-- The result of an operation, where an operation that has none may return anything. -/
def Operator.apply {α : Type} [Arithmetic α] : Operator → α → α → α
  | plus, a, b => a + b
  | minus, a, b => a - b
  | times, a, b => a * b
  | divide, a, b => a / b
  | power, a, b => Arithmetic.power a b

/-- Arithmetic with the tests that rules make on constants. `==` compares values, so that numbers
which are equal but written differently (a zero and its negation) are the same constant. -/
class Scalar (α : Type) extends Arithmetic α, BEq α, LT α, LE α, Min α where
  decidableLT (a b : α) : Decidable (a < b)
  decidableLE (a b : α) : Decidable (a ≤ b)
  /-- The value with its sign dropped. -/
  magnitude : α → α
  /-- Is the number zero, as far as the arithmetic can tell? -/
  isZero : α → Bool
  /-- Is the number one, as far as the arithmetic can tell? -/
  isOne : α → Bool
  /-- The integer that the number is, if it is one. -/
  whole? : α → Option Int
  /-- Does an operation on two numbers have a number as its result? -/
  isDefined : Operator → α → α → Bool

attribute [reducible, instance] Scalar.decidableLT Scalar.decidableLE

/-- The builtin functions of one argument, and what a call without a meaning evaluates to. -/
class Elementary (α : Type) where
  ln : α → α
  log10 : α → α
  sine : α → α
  cosine : α → α
  tangent : α → α
  undefined : α

/-- How numbers are read and written. -/
class Numeral (α : Type) where
  /-- The number with these decimal digits, of which the last `places` stand behind the point. -/
  ofDecimal (digits places : Nat) : α
  /-- The number as it is written. -/
  text : α → List Char
  /-- Is the number written with a sign? -/
  isNegative : α → Bool

variable {α : Type}

/-- The result of an operation that has one. -/
def Operator.result? [Scalar α] (op : Operator) (a b : α) : Option α :=
  if Scalar.isDefined op a b then some (op.apply a b) else none

/-- The value of a call; the logarithm to a base is the quotient of the natural logarithms. -/
def Builtin.evaluate [Div α] [Elementary α] : Builtin → List α → α
  | log, [x] => Elementary.ln x
  | log, [x, base] => Elementary.ln x / Elementary.ln base
  | log10, [x] => Elementary.log10 x
  | sine, [x] => Elementary.sine x
  | cosine, [x] => Elementary.cosine x
  | tangent, [x] => Elementary.tangent x
  | _, _ => Elementary.undefined

namespace Scalar

variable [Scalar α]

/-- Is the number an integer? -/
def isWhole (a : α) : Bool :=
  (whole? a).isSome

/-- Is the number an integer above zero? Such an exponent stands for a repeated factor. -/
def isPositiveWhole (a : α) : Bool :=
  isWhole a && decide (Nat.cast 0 < a)

/-- The greatest common divisor of two integers. -/
def gcd? (a b : α) : Option α :=
  match whole? a, whole? b with
  | some m, some n => some (Nat.cast (m.gcd n))
  | _, _ => none

end Scalar

end SymbolicCalculus
