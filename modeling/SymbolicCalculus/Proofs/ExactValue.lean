import Mathlib.Algebra.Order.Field.Rat
import Mathlib.Data.Rat.Cast.Defs
import Mathlib.Tactic.Ring
import SymbolicCalculus.Proofs.FaithfulMeaning

/-!
# Exact values

The tests that rules make on rational constants say what they seem to say
(`Exact.isPositiveWhole_iff`, `Exact.isZero_iff`), and exact arithmetic is a faithful meaning: a
quotient has a value where its divisor is not zero, and a power where its exponent is an integer
that is not negative or its base is not zero.
-/

namespace SymbolicCalculus

namespace Exact

/-- Exact arithmetic, with any values of the parameters and any meaning of the calls. -/
abbrev meaning (param : String → Option Rat) (call : Builtin → List Rat → Option Rat) :
    Interpretation Rat Rat :=
  .arithmetic param call

/-! ## Tests on constants -/

theorem whole?_eq_some {a : Rat} {m : Int} : Scalar.whole? a = some m ↔ a = m := by
  show (if a.den = 1 then some a.num else none) = some m ↔ a = m
  constructor
  · intro h
    split at h
    · next hden =>
      obtain rfl : a.num = m := by simpa using h
      exact (Rat.coe_int_num_of_den_eq_one hden).symm
    · contradiction
  · rintro rfl
    simp

theorem isWhole_iff {a : Rat} : Scalar.isWhole a = true ↔ ∃ m : Int, a = m := by
  rw [Scalar.isWhole, Option.isSome_iff_exists]
  simp only [whole?_eq_some]

theorem isPositiveWhole_iff {a : Rat} :
    Scalar.isPositiveWhole a = true ↔ ∃ n : Nat, 0 < n ∧ a = n := by
  simp only [Scalar.isPositiveWhole, Bool.and_eq_true, decide_eq_true_eq, isWhole_iff]
  constructor
  · rintro ⟨⟨m, rfl⟩, hpos⟩
    have hm : 0 < m := by exact_mod_cast hpos
    exact ⟨m.toNat, by omega, by exact_mod_cast (Int.toNat_of_nonneg hm.le).symm⟩
  · rintro ⟨n, hn, rfl⟩
    exact ⟨⟨n, by simp⟩, by exact_mod_cast hn⟩

@[simp] theorem isZero_iff {a : Rat} : Scalar.isZero a = true ↔ a = 0 :=
  beq_iff_eq

@[simp] theorem isOne_iff {a : Rat} : Scalar.isOne a = true ↔ a = 1 :=
  beq_iff_eq

/-- The smaller of two numbers is one of them. -/
theorem min_eq (a b : Rat) : Scalar.toMin.min a b = if a ≤ b then a else b :=
  rfl

theorem power_natCast (a : Rat) (n : Nat) : Arithmetic.power a (n : Rat) = a ^ n := by
  show (if (n : Rat).den = 1 then a ^ (n : Rat).num else 0) = a ^ n
  simp

/-! ## Results of operations -/

theorem result?_plus (x y : Rat) : Operator.result? .plus x y = some (x + y) :=
  rfl

theorem result?_minus (x y : Rat) : Operator.result? .minus x y = some (x - y) :=
  rfl

theorem result?_times (x y : Rat) : Operator.result? .times x y = some (x * y) :=
  rfl

theorem result?_divide {x y v : Rat} :
    Operator.result? .divide x y = some v ↔ y ≠ 0 ∧ x / y = v := by
  show (if (y != 0) = true then some (x / y) else none) = some v ↔ _
  by_cases hy : y = 0 <;> simp [hy]

theorem result?_power {x y v : Rat} :
    Operator.result? .power x y = some v ↔ ∃ n : Int, y = n ∧ (x ≠ 0 ∨ 0 ≤ n) ∧ x ^ n = v := by
  show (if (y.den == 1 && (x != 0 || decide (0 ≤ y.num))) = true then
    some (if y.den = 1 then x ^ y.num else 0) else none) = some v ↔ _
  constructor
  · intro h
    split at h
    · next hdef =>
      simp only [Bool.and_eq_true, beq_iff_eq, Bool.or_eq_true, bne_iff_ne,
        decide_eq_true_eq] at hdef
      rw [if_pos hdef.1, Option.some.injEq] at h
      exact ⟨y.num, (Rat.coe_int_num_of_den_eq_one hdef.1).symm, hdef.2, h⟩
    · contradiction
  · rintro ⟨n, rfl, hn, rfl⟩
    have hdef : (x != 0 || decide (0 ≤ (n : Rat).num)) = true := by
      rw [Bool.or_eq_true, bne_iff_ne, decide_eq_true_eq, Rat.num_intCast]
      exact hn
    rw [hdef]
    simp

/-! ## A faithful meaning -/

instance (param : String → Option Rat) (call : Builtin → List Rat → Option Rat) :
    (meaning param call).IsFaithful where
  const_eq k := (Rat.cast_id k).symm
  neg_eq _ := rfl
  operate_plus := result?_plus
  operate_minus := result?_minus
  operate_times := result?_times
  operate_divide := result?_divide
  power_natCast x n _ := result?_power.mpr ⟨n, by simp, Or.inr (by omega), zpow_natCast x n⟩
  power_zero {x v} h := by
    obtain ⟨n, hn, -, rfl⟩ := result?_power.mp h
    obtain rfl : n = 0 := by exact_mod_cast hn.symm
    exact zpow_zero x
  power_sub_one {x y v} hx h := by
    obtain ⟨n, rfl, -, rfl⟩ := result?_power.mp h
    exact result?_power.mpr ⟨n - 1, by push_cast; rfl, Or.inl hx, zpow_sub_one₀ hx n⟩
  power_add_one {x y v} hx h := by
    obtain ⟨n, rfl, -, rfl⟩ := result?_power.mp h
    exact result?_power.mpr ⟨n + 1, by push_cast; rfl, Or.inl hx, zpow_add_one₀ hx n⟩
  power_ratCast hk h := Option.some.inj (h.symm.trans hk)

end Exact

end SymbolicCalculus
