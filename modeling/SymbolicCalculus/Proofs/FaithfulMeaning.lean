import Mathlib.Algebra.Field.Basic
import Mathlib.Algebra.CharZero.Defs
import Mathlib.Data.Rat.Cast.CharZero
import Mathlib.Data.Rat.Cast.Lemmas
import SymbolicCalculus.Exact
import SymbolicCalculus.Proofs.Refinement

/-!
# Meanings in a field

What the rules need of the values that an expression with rational constants has: a field in which
the constants stand for themselves, a quotient by zero is undefined, and powers count factors as far
as they are defined (`Interpretation.IsFaithful`). Exact arithmetic is such a meaning, and so are
the real numbers with real powers. What the nodes of an expression are worth follows as
equivalences.
-/

namespace SymbolicCalculus

variable {F : Type} [Field F]

/-- The operations are those of the field, and the constants are the rational numbers in it. A power
may be undefined unless its exponent is a positive integer; one factor more or less of a base that
is not zero makes no difference to whether it is. -/
class Interpretation.IsFaithful (I : Interpretation Rat F) : Prop where
  const_eq (k : Rat) : I.const k = k
  neg_eq (x : F) : I.neg x = -x
  operate_plus (x y : F) : I.operate .plus x y = some (x + y)
  operate_minus (x y : F) : I.operate .minus x y = some (x - y)
  operate_times (x y : F) : I.operate .times x y = some (x * y)
  operate_divide {x y v : F} : I.operate .divide x y = some v ↔ y ≠ 0 ∧ x / y = v
  power_natCast (x : F) {n : Nat} (hn : 0 < n) : I.operate .power x n = some (x ^ n)
  power_zero {x v : F} (h : I.operate .power x 0 = some v) : v = 1
  power_sub_one {x y v : F} (hx : x ≠ 0) (h : I.operate .power x y = some v) :
    I.operate .power x (y - 1) = some (v / x)
  power_add_one {x y v : F} (hx : x ≠ 0) (h : I.operate .power x y = some v) :
    I.operate .power x (y + 1) = some (v * x)
  /-- A power of constants that is folded is the power in the field, if there is one. -/
  power_ratCast {a b k : Rat} {v : F} (hk : Operator.result? .power a b = some k)
    (h : I.operate .power a b = some v) : v = k

namespace Expr

open Interpretation.IsFaithful

variable {I : Interpretation Rat F} [I.IsFaithful] {a b : Expr Rat} {v : F}

/-! ## Values of nodes -/

@[simp] theorem value?_const (k : Rat) : (const k).value? I = some (k : F) :=
  congrArg some (const_eq k)

theorem value?_nat (n : Nat) : (nat n : Expr Rat).value? I = some (n : F) := by
  rw [nat, value?_const, Rat.cast_natCast]

theorem value?_zero : (nat 0 : Expr Rat).value? I = some 0 := by
  rw [value?_nat, Nat.cast_zero]

theorem value?_one : (nat 1 : Expr Rat).value? I = some 1 := by
  rw [value?_nat, Nat.cast_one]

theorem value?_const_neg (k : Rat) : (const (-k)).value? I = some (-(k : F)) := by
  rw [value?_const, Rat.cast_neg]

theorem value?_neg_one : (const (-1)).value? I = some (-1 : F) := by
  rw [value?_const_neg, Rat.cast_one]

theorem value?_const_mul [CharZero F] (k l : Rat) :
    (const (k * l)).value? I = some ((k : F) * l) := by
  rw [value?_const, Rat.cast_mul]

theorem value?_sum_iff :
    (sum a b).value? I = some v ↔
      ∃ x y, a.value? I = some x ∧ b.value? I = some y ∧ x + y = v := by
  simp only [value?_binary_eq_some, operate_plus, Option.some.injEq]

theorem value?_difference_iff :
    (difference a b).value? I = some v ↔
      ∃ x y, a.value? I = some x ∧ b.value? I = some y ∧ x - y = v := by
  simp only [value?_binary_eq_some, operate_minus, Option.some.injEq]

theorem value?_product_iff :
    (product a b).value? I = some v ↔
      ∃ x y, a.value? I = some x ∧ b.value? I = some y ∧ x * y = v := by
  simp only [value?_binary_eq_some, operate_times, Option.some.injEq]

theorem value?_quotient_iff :
    (quotient a b).value? I = some v ↔
      ∃ x y, a.value? I = some x ∧ b.value? I = some y ∧ y ≠ 0 ∧ x / y = v := by
  simp only [value?_binary_eq_some, operate_divide]

theorem value?_neg_iff : (neg a).value? I = some v ↔ ∃ x, a.value? I = some x ∧ -x = v := by
  simp only [value?_neg_eq_some, neg_eq]

/-- A power with a positive natural exponent has a value wherever its base has one. -/
theorem value?_power_nat {x : F} (h : a.value? I = some x) {n : Nat} (hn : 0 < n) :
    (power a (const (n : Rat))).value? I = some (x ^ n) :=
  value?_binary_eq_some.mpr ⟨x, n, h, value?_nat n, power_natCast x hn⟩

theorem eq_pow_of_power_nat {n : Nat} (hn : 0 < n)
    (h : (power a (const (n : Rat))).value? I = some v) :
    ∃ x, a.value? I = some x ∧ x ^ n = v := by
  obtain ⟨x, y, hx, hy, hv⟩ := value?_binary_eq_some.mp h
  obtain rfl : (n : F) = y := Option.some.inj ((value?_nat n).symm.trans hy)
  exact ⟨x, hx, Option.some.inj ((power_natCast x hn).symm.trans hv)⟩

end Expr

end SymbolicCalculus
