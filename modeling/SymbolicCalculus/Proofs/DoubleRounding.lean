import SymbolicCalculus.Proofs.DoubleNumber

/-!
# Rounding

What becomes of an integer times a power of two that is rounded to a double: the bits that there is
no room for are rounded off, and the carry may need one bit more (`roundWithAccuracy_eq`). The
result has the bits of a double (`isCanonical_roundWithAccuracy`), it is not smaller than a power of
two that the exact number is not smaller than (`exists_roundWithAccuracy_eq`), and it is not too
large if the exact number is not (`isFinite_clamped_roundWithAccuracy`).
-/

namespace SymbolicCalculus.Binary64

open Float.Model
open Float.Model.UnpackedFloat (Sign Accuracy ExtendedMantissa)

/-! ## Bits rounded off -/

theorem mantissa_shiftRight (em : ExtendedMantissa) (k : Nat) :
    (em >>> k).mantissa = em.mantissa / 2 ^ k := by
  induction k with
  | zero => exact (Nat.div_one _).symm
  | succ k ih =>
    show (em >>> k).mantissa / 2 = _
    rw [ih, Nat.div_div_eq_div_mul, Nat.pow_succ]

/-- Zeros are rounded off without a trace. -/
theorem shiftRight_of_zeros (m k : Nat) :
    (⟨m * 2 ^ k, false, false⟩ : ExtendedMantissa) >>> k = ⟨m, false, false⟩ := by
  induction k generalizing m with
  | zero =>
    rw [Nat.pow_zero, Nat.mul_one]
    rfl
  | succ k ih =>
    show ExtendedMantissa.shiftRightOne
      ((⟨m * 2 ^ (k + 1), false, false⟩ : ExtendedMantissa) >>> k) = _
    rw [Nat.pow_succ, Nat.mul_comm (2 ^ k) 2, ← Nat.mul_assoc, ih]
    simp [ExtendedMantissa.shiftRightOne]

theorem roundedMantissa_bounds (em : ExtendedMantissa) :
    em.mantissa ≤ em.roundedMantissa ∧ em.roundedMantissa ≤ em.mantissa + 1 := by
  obtain ⟨m, round, sticky⟩ := em
  cases round <;> cases sticky <;>
    simp only [ExtendedMantissa.roundedMantissa, ExtendedMantissa.accuracy,
      Accuracy.roundToNearestEven] <;> omega

/-- How many bits of `m * 2 ^ e` a double has no room for. -/
def surplus (m : Nat) (e : Int) : Nat :=
  (max (m.log2 + e - 52) (-1074) - e).toNat

/-- What is left of `m` when the surplus bits are rounded off. -/
def roundedOff (m : Nat) (e : Int) (accuracy : Accuracy) : Nat :=
  (ExtendedMantissa.ofMantissaAndAccuracy m accuracy >>> surplus m e).roundedMantissa

theorem roundedOff_bounds (m : Nat) (e : Int) (accuracy : Accuracy) :
    m / 2 ^ surplus m e ≤ roundedOff m e accuracy ∧
      roundedOff m e accuracy ≤ m / 2 ^ surplus m e + 1 := by
  have hmantissa : (ExtendedMantissa.ofMantissaAndAccuracy m accuracy).mantissa = m := by
    unfold ExtendedMantissa.ofMantissaAndAccuracy
    split <;> rfl
  have hbounds := roundedMantissa_bounds
    (ExtendedMantissa.ofMantissaAndAccuracy m accuracy >>> surplus m e)
  rwa [mantissa_shiftRight, hmantissa] at hbounds

theorem div_surplus_lt (m : Nat) (e : Int) : m / 2 ^ surplus m e < 9007199254740992 := by
  have hlog : m.log2 + 1 ≤ 53 + surplus m e := by
    unfold surplus
    omega
  rw [Nat.div_lt_iff_lt_mul (Nat.two_pow_pos _)]
  calc m < 2 ^ (m.log2 + 1) := Nat.lt_log2_self
    _ ≤ 2 ^ (53 + surplus m e) := Nat.pow_le_pow_right (by decide) hlog
    _ = 9007199254740992 * 2 ^ surplus m e := Nat.pow_add 2 53 _

theorem shiftToTargetExponent_eq (m : Nat) (e : Int) (accuracy : Accuracy) :
    UnpackedFloat.shiftToTargetExponent Format.binary64 m e accuracy =
      (ExtendedMantissa.ofMantissaAndAccuracy m accuracy >>> surplus m e, e + surplus m e) := by
  have htarget : (Format.binary64.targetExponent (totalExponent m e) - e).toNat = surplus m e := by
    unfold Format.targetExponent totalExponent surplus
    rw [show Format.binary64.minExponent = -1074 from rfl,
      show (Format.binary64.mantissaBits : Int) = 53 from rfl]
    omega
  unfold UnpackedFloat.shiftToTargetExponent UnpackedFloat.shiftToExponent
  simp only [htarget]

theorem le_add_surplus (m : Nat) (e : Int) : -1074 ≤ e + surplus m e := by
  unfold surplus
  omega

theorem surplus_of_lt {m : Nat} {e : Int} (hm : m < 9007199254740992) (he : -1074 ≤ e) :
    surplus m e = 0 := by
  have hlog : m.log2 ≤ 52 := by
    rcases Nat.eq_zero_or_pos m with rfl | hpos
    · simp
    · exact Nat.le_of_lt_succ ((Nat.log2_lt hpos.ne').mpr hm)
  unfold surplus
  omega

theorem surplus_of_carry {e : Int} (he : -1074 ≤ e) : surplus 9007199254740992 e = 1 := by
  have hlog : (9007199254740992 : Nat).log2 = 53 := Nat.log2_two_pow (n := 53)
  unfold surplus
  rw [hlog]
  omega

/-- The number `m * 2 ^ e` with a sign. -/
def signed (sign : Sign) (m : Nat) (e : Int) : UnpackedFloat :=
  if h : m = 0 then .zero sign else .finite sign m e (Nat.pos_of_ne_zero h)

theorem roundWithAccuracy_eq_signed (sign : Sign) (m : Nat) (e : Int) (accuracy : Accuracy) :
    UnpackedFloat.roundWithAccuracy Format.binary64 sign m e accuracy =
      signed sign
        (roundedOff m e accuracy / 2 ^ surplus (roundedOff m e accuracy) (e + surplus m e))
        (e + surplus m e + surplus (roundedOff m e accuracy) (e + surplus m e)) := by
  unfold UnpackedFloat.roundWithAccuracy
  simp only [shiftToTargetExponent_eq, mantissa_shiftRight]
  rfl

/-- What becomes of a number that is rounded. The bits that a double has no room for are rounded
off, which may carry over to one bit more. -/
theorem roundWithAccuracy_eq (sign : Sign) (m : Nat) (e : Int) (accuracy : Accuracy) :
    UnpackedFloat.roundWithAccuracy Format.binary64 sign m e accuracy =
      if roundedOff m e accuracy < 9007199254740992 then
        signed sign (roundedOff m e accuracy) (e + surplus m e)
      else signed sign 4503599627370496 (e + surplus m e + 1) := by
  have hexp := le_add_surplus m e
  rw [roundWithAccuracy_eq_signed]
  by_cases h : roundedOff m e accuracy < 9007199254740992
  · rw [if_pos h, surplus_of_lt h hexp, Nat.pow_zero, Nat.div_one]
    simp
  · have hcarry : roundedOff m e accuracy = 9007199254740992 := by
      have := (roundedOff_bounds m e accuracy).2
      have := div_surplus_lt m e
      omega
    rw [if_neg h, hcarry, surplus_of_carry hexp]
    rfl

/-! ## Bits of a double -/

theorem isCanonical_signed (sign : Sign) {m : Nat} {e : Int} (hm : m < 9007199254740992)
    (he : -1074 ≤ e) (hbits : 4503599627370496 ≤ m ∨ e = -1074) :
    IsCanonical (signed sign m e) := by
  unfold signed
  split
  · trivial
  · exact ⟨hm, he, hbits⟩

theorem two_pow_le_div {m k : Nat} (hm : 0 < m) (hk : k ≤ m.log2) :
    2 ^ (m.log2 - k) ≤ m / 2 ^ k := by
  rw [Nat.le_div_iff_mul_le (Nat.two_pow_pos k), ← Nat.pow_add, Nat.sub_add_cancel hk]
  exact Nat.log2_self_le hm.ne'

/-- A number is rounded to one with the bits of a double, provided none of its bits are missing. -/
theorem isCanonical_roundWithAccuracy (sign : Sign) {m : Nat} {e : Int} (accuracy : Accuracy)
    (hbits : 4503599627370496 ≤ m ∨ e ≤ -1074) :
    IsCanonical (UnpackedFloat.roundWithAccuracy Format.binary64 sign m e accuracy) := by
  have hexp := le_add_surplus m e
  rw [roundWithAccuracy_eq]
  split
  · next hlt =>
    refine isCanonical_signed sign hlt hexp ?_
    by_cases hleast : e + surplus m e = -1074
    · exact .inr hleast
    · left
      have hlog : m.log2 = 52 + surplus m e := by
        have : 4503599627370496 ≤ m → 52 ≤ m.log2 := fun h =>
          (Nat.le_log2 (by omega)).mpr h
        unfold surplus at hleast ⊢
        omega
      have hpos : 0 < m := by
        rcases Nat.eq_zero_or_pos m with rfl | h
        · simp only [Nat.log2_zero] at hlog
          omega
        · exact h
      have hdiv := two_pow_le_div hpos (k := surplus m e) (by omega)
      have hround := (roundedOff_bounds m e accuracy).1
      rw [hlog, Nat.add_sub_cancel] at hdiv
      exact hdiv.trans hround
  · exact isCanonical_signed sign (by decide) (by omega) (.inl (Nat.le_refl _))

/-! ## Large numbers -/

/-- A number that is not less than the power of two `2 ^ (m.log2 + e)`, which is a double, is not
rounded to anything less. -/
theorem exists_roundWithAccuracy_eq (sign : Sign) {m : Nat} {e : Int} (accuracy : Accuracy)
    (hm : 0 < m) (hlow : -1074 ≤ m.log2 + e) :
    ∃ m' e' hm', UnpackedFloat.roundWithAccuracy Format.binary64 sign m e accuracy =
      .finite sign m' e' hm' ∧ m.log2 + e ≤ m'.log2 + e' := by
  have hsurplus : (surplus m e : Int) ≤ m.log2 ∧ (m.log2 : Int) ≤ 52 + surplus m e := by
    unfold surplus
    omega
  have hdiv := (two_pow_le_div hm (by omega)).trans (roundedOff_bounds m e accuracy).1
  have hpos : 0 < roundedOff m e accuracy := (Nat.two_pow_pos _).trans_le hdiv
  have hlog : m.log2 - surplus m e ≤ (roundedOff m e accuracy).log2 :=
    (Nat.le_log2 hpos.ne').mpr hdiv
  rw [roundWithAccuracy_eq]
  split
  · exact ⟨_, _, hpos, dif_neg hpos.ne', by omega⟩
  · refine ⟨_, _, by decide, dif_neg (by decide), ?_⟩
    rw [show (4503599627370496 : Nat).log2 = 52 from Nat.log2_two_pow (n := 52)]
    omega

/-! ## Numbers in range -/

/-- The number `m * 2 ^ e` is not above the largest double. -/
def Fits (m : Nat) (e : Int) : Prop :=
  e ≤ 971 ∧ m ≤ 9007199254740991 * 2 ^ (971 - e).toNat

theorem fits_of_le {m : Nat} {e : Int} (hm : m ≤ 9007199254740991) (he : e ≤ 971) : Fits m e :=
  ⟨he, hm.trans (Nat.le_mul_of_pos_right _ Nat.one_le_two_pow)⟩

theorem Fits.mono {m m' : Nat} {e : Int} (h : Fits m e) (hle : m' ≤ m) : Fits m' e :=
  ⟨h.1, hle.trans h.2⟩

theorem Fits.mul_two_pow {m : Nat} {e : Int} (h : Fits m e) (k : Nat) :
    Fits (m * 2 ^ k) (e - k) := by
  obtain ⟨he, hm⟩ := h
  refine ⟨by omega, ?_⟩
  calc m * 2 ^ k ≤ 9007199254740991 * 2 ^ (971 - e).toNat * 2 ^ k := Nat.mul_le_mul_right _ hm
    _ = 9007199254740991 * 2 ^ (971 - (e - k)).toNat := by
      rw [Nat.mul_assoc, ← Nat.pow_add]
      congr 2
      omega

theorem Fits.log2_le {m : Nat} {e : Int} (h : Fits m e) : m.log2 + e ≤ 1023 := by
  obtain ⟨he, hm⟩ := h
  rcases Nat.eq_zero_or_pos m with rfl | hpos
  · simp only [Nat.log2_zero]
    omega
  · have hlt : m < 2 ^ (53 + (971 - e).toNat) := by
      rw [Nat.pow_add]
      exact hm.trans_lt (Nat.mul_lt_mul_of_pos_right (by decide) (Nat.two_pow_pos _))
    have := (Nat.log2_lt hpos.ne').mpr hlt
    omega

/-- Only the largest of the numbers that fit has all its bits set, and none of them is rounded
off. -/
theorem roundedOff_of_fits {m : Nat} {e : Int} (h : Fits m e) (hexp : e + surplus m e = 971) :
    roundedOff m e .exact < 9007199254740992 := by
  have hk : (971 - e).toNat = surplus m e := by omega
  have hle := h.2
  rw [hk] at hle
  rcases hle.eq_or_lt with heq | hlt
  · have hzeros := shiftRight_of_zeros 9007199254740991 (surplus m e)
    rw [← heq] at hzeros
    unfold roundedOff ExtendedMantissa.ofMantissaAndAccuracy
    rw [hzeros]
    decide
  · have hdiv := (Nat.div_lt_iff_lt_mul (Nat.two_pow_pos _)).mpr hlt
    have := (roundedOff_bounds m e .exact).2
    omega

/-- A number that is not above the largest double is not rounded to infinity. -/
theorem isFinite_clamped_roundWithAccuracy (sign : Sign) {m : Nat} {e : Int} (h : Fits m e) :
    (clamped (UnpackedFloat.roundWithAccuracy Format.binary64 sign m e .exact)).isFinite =
      true := by
  have hsigned : ∀ {m' e'}, e' ≤ 971 → (clamped (signed sign m' e')).isFinite = true := by
    intro m' e' he'
    unfold signed
    split
    · rfl
    · rw [clamped, if_neg (by omega)]
      rfl
  have hexp : e + surplus m e ≤ 971 := by
    have := h.log2_le
    have := h.1
    unfold surplus
    omega
  rw [roundWithAccuracy_eq]
  split
  · exact hsigned hexp
  · next hcarry =>
    have hne : e + surplus m e ≠ 971 := fun heq => hcarry (roundedOff_of_fits h heq)
    exact hsigned (by omega)

end SymbolicCalculus.Binary64
