import Mathlib.Analysis.SpecialFunctions.Pow.Real
import SymbolicCalculus.Proofs.ExpansionValue
import SymbolicCalculus.Proofs.ReductionValue

/-!
# Real powers

With exponents that need not be integers, the rules are sound in the real numbers but for one. A
power of a positive number is defined for any exponent, that of a negative number for integers only,
and that of zero for positive exponents. Multiplying the exponents of nested powers may change the
sign: `(x^2)^(1/2)` is not negative, and `x` may be. It keeps the value exactly if the base is not
negative, the outer exponent is an integer or the product of the exponents is an even integer
(`realPower_mul_iff`). `Expr.reduce_value_of_keepsSign`: a reduction that multiplies no other
exponents keeps the value.
-/

namespace SymbolicCalculus

/-! ## Powers -/

open Classical in
/-- A power of a real number, if it is defined. -/
noncomputable def realPower (u v : ℝ) : Option ℝ :=
  if 0 < u ∨ (u = 0 ∧ 0 < v) ∨ (u < 0 ∧ ∃ n : ℤ, v = n) then some (u ^ v) else none

theorem realPower_eq_some {u v w : ℝ} :
    realPower u v = some w ↔
      (0 < u ∨ (u = 0 ∧ 0 < v) ∨ (u < 0 ∧ ∃ n : ℤ, v = n)) ∧ u ^ v = w := by
  simp [realPower]

theorem realPower_of_pos {u : ℝ} (hu : 0 < u) (v : ℝ) : realPower u v = some (u ^ v) :=
  realPower_eq_some.mpr ⟨.inl hu, rfl⟩

theorem realPower_intCast {u : ℝ} (hu : u < 0) (n : ℤ) : realPower u n = some (u ^ n) :=
  realPower_eq_some.mpr ⟨.inr (.inr ⟨hu, n, rfl⟩), Real.rpow_intCast u n⟩

/-- The base of a power of a negative number has an integer as its exponent. -/
theorem exists_int_of_realPower {u v w : ℝ} (hu : u < 0) (h : realPower u v = some w) :
    ∃ n : ℤ, v = n ∧ u ^ n = w := by
  obtain ⟨hpos | ⟨hzero, -⟩ | ⟨-, n, rfl⟩, rfl⟩ := realPower_eq_some.mp h
  · exact absurd hpos hu.not_gt
  · exact absurd hzero hu.ne
  · exact ⟨n, rfl, (Real.rpow_intCast u n).symm⟩

/-! ## Nested powers -/

/-- May the exponents of `(u ^ m) ^ n` be multiplied? The base is not negative, or else the sign is
that of the inner power to an integer, or there is no sign left. -/
def KeepsSign (u m n : ℝ) : Prop :=
  0 ≤ u ∨ (∃ k : ℤ, n = k) ∨ ∃ k : ℤ, Even k ∧ m * n = k

/-- A negative number to an even integer is its magnitude to that integer. -/
theorem zpow_eq_neg_rpow {u : ℝ} {k : ℤ} (hk : Even k) : u ^ k = (-u) ^ (k : ℝ) := by
  rw [Real.rpow_intCast, hk.neg_zpow]

/-- A power of a negative number that is positive has an even exponent. -/
theorem even_of_zpow_pos {u : ℝ} {k : ℤ} (hu : u < 0) (h : 0 < u ^ k) : Even k := by
  by_contra hodd
  exact absurd (Odd.zpow_neg (Int.not_even_iff_odd.mp hodd) hu) h.not_gt

theorem realPower_zero {v w : ℝ} (h : realPower 0 v = some w) : 0 < v ∧ w = 0 := by
  obtain ⟨hdefined, rfl⟩ := realPower_eq_some.mp h
  have hv : 0 < v := by simpa using hdefined
  exact ⟨hv, Real.zero_rpow hv.ne'⟩

section nested

variable {u m n x w : ℝ}

/-- With an integer outside, the exponents multiply by a law of integer powers. -/
theorem realPower_mul_intCast {i j : ℤ} (hu : u < 0) (hw : realPower (u ^ i) j = some w) :
    realPower u (i * j) = some w := by
  obtain ⟨-, rfl⟩ := realPower_eq_some.mp hw
  have hpow : realPower u (i * j) = some (u ^ (i * j)) := by
    exact_mod_cast realPower_intCast hu (i * j)
  rw [hpow, Real.rpow_intCast, zpow_mul]

/-- With something else outside, the inner power is positive, and so it has lost its sign. What the
nested powers are worth is a power of the magnitude. -/
theorem rpow_neg_of_not_int {i : ℤ} (hu : u < 0) (hn : ¬ ∃ k : ℤ, n = k)
    (hw : realPower (u ^ i) n = some w) : (-u) ^ ((i : ℝ) * n) = w := by
  have hpos : 0 < u ^ i := by
    rcases lt_trichotomy 0 (u ^ i) with hpos | hzero | hneg
    · exact hpos
    · exact absurd hzero.symm (zpow_ne_zero i hu.ne)
    · obtain ⟨j, hj, -⟩ := exists_int_of_realPower hneg hw
      exact absurd ⟨j, hj⟩ hn
  obtain ⟨-, rfl⟩ := realPower_eq_some.mp hw
  rw [zpow_eq_neg_rpow (even_of_zpow_pos hu hpos), Real.rpow_mul (by linarith)]

/-- A power of a negative number is that power of its magnitude exactly if the exponent is an even
integer. -/
theorem realPower_eq_rpow_neg_iff {v : ℝ} (hu : u < 0) :
    realPower u v = some ((-u) ^ v) ↔ ∃ k : ℤ, Even k ∧ v = k := by
  constructor
  · intro h
    obtain ⟨k, rfl, hk⟩ := exists_int_of_realPower hu h
    have hpos : 0 < u ^ k := by
      rw [hk]
      exact Real.rpow_pos_of_pos (by linarith) _
    exact ⟨k, even_of_zpow_pos hu hpos, rfl⟩
  · rintro ⟨k, hk, rfl⟩
    rw [realPower_intCast hu, zpow_eq_neg_rpow hk]

/-- Multiplying the exponents of nested powers keeps the value exactly if it keeps the sign. -/
theorem realPower_mul_iff (hx : realPower u m = some x) (hw : realPower x n = some w) :
    realPower u (m * n) = some w ↔ KeepsSign u m n := by
  rcases lt_trichotomy 0 u with hu | rfl | hu
  · -- Powers of positive numbers are positive.
    obtain ⟨-, rfl⟩ := realPower_eq_some.mp hx
    obtain ⟨-, rfl⟩ := realPower_eq_some.mp hw
    rw [realPower_of_pos hu, Real.rpow_mul hu.le]
    simp [KeepsSign, hu.le]
  · -- Of zero, both exponents are positive and both powers are zero.
    obtain ⟨hm, rfl⟩ := realPower_zero hx
    obtain ⟨hn, rfl⟩ := realPower_zero hw
    have hmn : 0 < m * n := mul_pos hm hn
    simp [KeepsSign, realPower, hmn, Real.zero_rpow hmn.ne']
  · obtain ⟨i, rfl, rfl⟩ := exists_int_of_realPower hu hx
    by_cases hn : ∃ k : ℤ, n = k
    · obtain ⟨j, rfl⟩ := hn
      exact iff_of_true (realPower_mul_intCast hu hw) (.inr (.inl ⟨j, rfl⟩))
    · rw [← rpow_neg_of_not_int hu hn hw, realPower_eq_rpow_neg_iff hu]
      simp [KeepsSign, hu.not_ge, hn]

end nested

/-! ## The real numbers as a faithful meaning -/

/-- Values in the real numbers, with real powers and any meaning of the calls. -/
noncomputable abbrev realMeaning (param : String → Option ℝ)
    (call : Builtin → List ℝ → Option ℝ) : Interpretation Rat ℝ :=
  .field param ((Rat.castHom ℝ : ℚ →* ℝ) : ℚ →ₙ* ℝ) realPower call

instance (param : String → Option ℝ) (call : Builtin → List ℝ → Option ℝ) :
    (realMeaning param call).IsFaithful where
  const_eq _ := rfl
  neg_eq _ := rfl
  operate_plus _ _ := rfl
  operate_minus _ _ := rfl
  operate_times _ _ := rfl
  operate_divide := Calculus.divide_eq_some
  power_natCast x n hn := by
    refine realPower_eq_some.mpr ⟨?_, Real.rpow_natCast x n⟩
    rcases lt_trichotomy 0 x with hx | rfl | hx
    · exact .inl hx
    · exact .inr (.inl ⟨rfl, by exact_mod_cast hn⟩)
    · exact .inr (.inr ⟨hx, n, by simp⟩)
  power_zero {x v} h := by
    obtain ⟨-, rfl⟩ := realPower_eq_some.mp h
    exact Real.rpow_zero x
  power_sub_one {x y v} hx h := by
    obtain ⟨hdef, rfl⟩ := realPower_eq_some.mp h
    refine realPower_eq_some.mpr ⟨?_, Real.rpow_sub_one hx y⟩
    obtain hpos | ⟨hzero, -⟩ | ⟨hneg, n, rfl⟩ := hdef
    · exact .inl hpos
    · exact absurd hzero hx
    · exact .inr (.inr ⟨hneg, n - 1, by push_cast; rfl⟩)
  power_add_one {x y v} hx h := by
    obtain ⟨hdef, rfl⟩ := realPower_eq_some.mp h
    refine realPower_eq_some.mpr ⟨?_, Real.rpow_add_one hx y⟩
    obtain hpos | ⟨hzero, -⟩ | ⟨hneg, n, rfl⟩ := hdef
    · exact .inl hpos
    · exact absurd hzero hx
    · exact .inr (.inr ⟨hneg, n + 1, by push_cast; rfl⟩)
  power_ratCast {a b k v} hk h := by
    obtain ⟨n, rfl, -, rfl⟩ := Exact.result?_power.mp hk
    obtain ⟨-, rfl⟩ := realPower_eq_some.mp h
    rw [Rat.cast_intCast, Real.rpow_intCast, Rat.cast_zpow]

namespace Expr

/-! ## Reductions that keep the signs -/

/-- The base and the two exponents of the nested powers whose exponents a rule multiplied. -/
def multiplied? : Event Rat → Option (Expr Rat × Expr Rat × Expr Rat)
  | .replaced rule (power a (product m n)) =>
    if rule = "(a^b)^c = a^(b*c)" then some (a, m, n) else none
  | _ => none

/-- Each time that exponents of nested powers were multiplied, their values keep the sign of the
base. -/
def KeepsSigns (I : Interpretation Rat ℝ) (events : List (Event Rat)) : Prop :=
  ∀ a m n, (a, m, n) ∈ events.filterMap multiplied? → ∀ u y z, a.value? I = some u →
    m.value? I = some y → n.value? I = some z → KeepsSign u y z

section run

variable {param : String → Option ℝ} {call : Builtin → List ℝ → Option ℝ}

/-- The rule for nested powers keeps a value exactly if it keeps the sign. -/
theorem nestedPowers_value_iff {a m n : Expr Rat} {u y z w : ℝ}
    (hu : a.value? (realMeaning param call) = some u)
    (hy : m.value? (realMeaning param call) = some y)
    (hz : n.value? (realMeaning param call) = some z)
    (hw : (power (power a m) n).value? (realMeaning param call) = some w) :
    (power a (product m n)).value? (realMeaning param call) = some w ↔ KeepsSign u y z := by
  have hpower : ∀ {b c : Expr Rat} {s t : ℝ}, b.value? (realMeaning param call) = some s →
      c.value? (realMeaning param call) = some t →
      (power b c).value? (realMeaning param call) = realPower s t := by
    intro b c s t hs ht
    rw [value?_binary, hs, ht]
    rfl
  obtain ⟨x, z', hx, hz', hw⟩ := value?_binary_eq_some.mp hw
  obtain rfl : z' = z := Option.some.inj (hz'.symm.trans hz)
  rw [hpower hu hy] at hx
  rw [hpower hu (value?_product_iff.mpr ⟨y, z', hy, hz, rfl⟩)]
  exact realPower_mul_iff hx hw

theorem keepsNestedPowers_of_keepsSigns {events : List (Event Rat)}
    (h : KeepsSigns (realMeaning param call) events) :
    ∀ event ∈ events, KeepsNestedPowers (realMeaning param call) event := by
  intro event hmem
  cases event with
  | replaced rule result =>
    rintro hrule a m n rfl w hw
    obtain ⟨x, z, hx, hz, -⟩ := value?_binary_eq_some.mp hw
    obtain ⟨u, y, hu, hy, -⟩ := value?_binary_eq_some.mp hx
    refine (nestedPowers_value_iff hu hy hz hw).mpr (h a m n ?_ u y z hu hy hz)
    exact List.mem_filterMap.mpr ⟨_, hmem, if_pos hrule⟩
  | _ => trivial

end run

/-- The square root of the square of a positive number. -/
theorem realPower_sq_half {t : ℝ} (ht : 0 < t) : realPower (t ^ 2) ((1 / 2 : ℚ) : ℝ) = some t := by
  rw [realPower_of_pos (pow_pos ht 2)]
  have hhalf : ((1 / 2 : ℚ) : ℝ) = ((2 : ℕ) : ℝ)⁻¹ := by norm_num
  rw [hhalf, Real.pow_rpow_inv_natCast ht.le two_ne_zero]

end Expr

end SymbolicCalculus
