import SymbolicCalculus.Scalar

/-!
# Exact arithmetic

Rational numbers as the constants of expressions. Nothing is rounded and nothing overflows, zero and
one are recognized exactly, and an operation is undefined only where it has no rational result: a
quotient by zero, a power with an exponent that is no integer, and a negative power of zero.
-/

namespace SymbolicCalculus

namespace Exact

/-- A power with an integer exponent; zero to the power zero is one. -/
def power (a b : Rat) : Rat :=
  if b.den = 1 then a ^ b.num else 0

/-- Has the operation a rational result? -/
def isDefined : Operator → Rat → Rat → Bool
  | .divide, _, b => b != 0
  | .power, a, b => b.den == 1 && (a != 0 || decide (0 ≤ b.num))
  | _, _, _ => true

end Exact

instance : Arithmetic Rat where
  power := Exact.power

instance : Scalar Rat where
  min a b := if a ≤ b then a else b
  decidableLT _ _ := inferInstance
  decidableLE _ _ := inferInstance
  magnitude a := if a < 0 then -a else a
  isZero a := a == 0
  isOne a := a == 1
  whole? a := if a.den = 1 then some a.num else none
  isDefined := Exact.isDefined

end SymbolicCalculus
