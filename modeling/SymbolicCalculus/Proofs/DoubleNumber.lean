import Mathlib
import SymbolicCalculus.Binary64.Basic

/-!
# What number a double is

A double is read from its bits (`Binary64.number`) as infinite, as no number, as a zero, or as a
sign with an integer times a power of two, which are its significand and its scale
(`isRead_number`). The tests on doubles are those on numbers (`isFinite_eq`, `isNaN_eq`). A number
is written as a double (`Binary64.ofNumber`) that reads as the same number if its integer has the 53
bits of a double, and as infinite if it is too large: `number_ofNumber`.
-/

namespace SymbolicCalculus.Binary64

open Float.Model
open Float.Model.UnpackedFloat (Sign)

/-! ## Fields -/

theorem exponentField_eq (x : Binary64) :
    x.exponentField = (@UnpackedFloat.unpackExponent Format.binary64 x.bits.toBitVec).toNat := by
  have hmask : x.bits.toNat >>> 52 &&& 2047 = x.bits.toNat >>> 52 % 2048 :=
    Nat.and_two_pow_sub_one_eq_mod _ 11
  simp [exponentField, UnpackedFloat.unpackExponent, BitVec.extractLsb_toNat, hmask]

theorem fractionField_eq (x : Binary64) :
    x.fractionField = (@UnpackedFloat.unpackMantissa Format.binary64 x.bits.toBitVec).toNat := by
  have hmask : x.bits.toNat &&& 4503599627370495 = x.bits.toNat % 4503599627370496 :=
    Nat.and_two_pow_sub_one_eq_mod _ 52
  simp [fractionField, UnpackedFloat.unpackMantissa, BitVec.extractLsb_toNat, hmask]

theorem exponentField_le (x : Binary64) : x.exponentField ≤ 2047 := by
  rw [exponentField_eq]
  exact Nat.le_of_lt_succ (BitVec.isLt _)

theorem fractionField_lt (x : Binary64) : x.fractionField < 4503599627370496 := by
  rw [fractionField_eq]
  exact BitVec.isLt _

/-- The significand has at most 53 bits, and all of them if the scale is not the least. -/
theorem significand_bounds (x : Binary64) :
    x.significand < 9007199254740992 ∧ -1074 ≤ x.scale ∧
      (4503599627370496 ≤ x.significand ∨ x.scale = -1074) := by
  have := fractionField_lt x
  by_cases h : x.exponentField = 0
  · rw [significand, scale, if_pos h, if_pos h]
    omega
  · rw [significand, scale, if_neg h, if_neg h, Nat.shiftLeft_eq, Nat.one_mul]
    omega

theorem scale_le {x : Binary64} (h : x.exponentField < 2047) : x.scale ≤ 971 := by
  unfold scale
  split <;> omega

/-! ## Reading -/

/-- The number that the bits of a double stand for. -/
def number (x : Binary64) : UnpackedFloat :=
  UnpackedFloat.unpack Format.binary64 x.bits.toBitVec

/-- What the fields of a double make it. -/
inductive IsRead (x : Binary64) : UnpackedFloat → Prop
  | infinity (sign : Sign) : x.exponentField = 2047 → x.fractionField = 0 →
    IsRead x (.infinity sign)
  | notANumber : x.exponentField = 2047 → x.fractionField ≠ 0 → IsRead x .notANumber
  | zero (sign : Sign) : x.exponentField < 2047 → x.significand = 0 → IsRead x (.zero sign)
  | finite (sign : Sign) (hpos : 0 < x.significand) : x.exponentField < 2047 →
    IsRead x (.finite sign x.significand x.scale hpos)

theorem isRead_finite {x : Binary64} {sign : Sign} {m : Nat} {e : Int} (hpos : 0 < m)
    (hm : m = x.significand) (he : e = x.scale) (hexp : x.exponentField < 2047) :
    IsRead x (.finite sign m e hpos) := by
  subst hm he
  exact .finite sign hpos hexp

theorem isRead_number (x : Binary64) : IsRead x x.number := by
  have hexponent := exponentField_eq x
  have hfraction := fractionField_eq x
  have hle := exponentField_le x
  have hones : @UnpackedFloat.unpackExponent Format.binary64 x.bits.toBitVec = -1#_ ↔
      x.exponentField = 2047 := by
    rw [hexponent, ← BitVec.toNat_inj]
    rfl
  have hnone : @UnpackedFloat.unpackExponent Format.binary64 x.bits.toBitVec = 0#_ ↔
      x.exponentField = 0 := by
    rw [hexponent, ← BitVec.toNat_inj]
    rfl
  have hempty : @UnpackedFloat.unpackMantissa Format.binary64 x.bits.toBitVec = 0#_ ↔
      x.fractionField = 0 := by
    rw [hfraction, ← BitVec.toNat_inj]
    rfl
  have hbias : (Format.binary64.exponentBias : Int) = 1023 := rfl
  unfold number UnpackedFloat.unpack
  dsimp only
  split
  · next hexp =>
    split
    · next hzero => exact .infinity _ (hones.mp hexp) (hempty.mp hzero)
    · next hzero => exact .notANumber (hones.mp hexp) (mt hempty.mpr hzero)
  · next hexp =>
    have hexp' : x.exponentField < 2047 := by
      have := mt hones.mpr hexp
      omega
    split
    · next hsubnormal =>
      have hfield := hnone.mp hsubnormal
      split
      · next hzero => exact .zero _ hexp' (by simp [significand, hfield, hempty.mp hzero])
      · refine isRead_finite _ ?_ ?_ hexp'
        · rw [significand, if_pos hfield, hfraction]
        · rw [scale, if_pos hfield, ← hexponent, hfield, hbias]
          rfl
    · next hnormal =>
      have hfield := mt hnone.mpr hnormal
      refine isRead_finite _ ?_ ?_ hexp'
      · rw [significand, if_neg hfield, hfraction, BitVec.toNat_append,
          Nat.shiftLeft_add_eq_or_of_lt (BitVec.isLt _)]
        rfl
      · rw [scale, if_neg hfield, ← hexponent, hbias]
        rfl

theorem isFinite_eq (x : Binary64) : x.isFinite = x.number.isFinite := by
  have hread := isRead_number x
  generalize x.number = f at hread ⊢
  cases hread with
  | infinity _ h | notANumber h => simp [isFinite, h, UnpackedFloat.isFinite]
  | zero _ h | finite _ _ h => simp [isFinite, h.ne, UnpackedFloat.isFinite]

theorem isNaN_eq (x : Binary64) : x.isNaN = x.number.isNaN := by
  have hread := isRead_number x
  generalize x.number = f at hread ⊢
  cases hread with
  | infinity _ h h' | notANumber h h' => simp [isNaN, isFinite, h, h', UnpackedFloat.isNaN]
  | zero _ h | finite _ _ h => simp [isNaN, isFinite, h.ne, UnpackedFloat.isNaN]

/-! ## Writing -/

/-- Has the integer of a number the bits that a double has room for, and all of them unless the
power of two is the least? -/
def IsCanonical : UnpackedFloat → Prop
  | .finite _ m e _ =>
    m < 9007199254740992 ∧ -1074 ≤ e ∧ (4503599627370496 ≤ m ∨ e = -1074)
  | _ => True

/-- What becomes of a number that may be too large for a double. -/
def clamped : UnpackedFloat → UnpackedFloat
  | .finite sign m e hm => if 971 < e then .infinity sign else .finite sign m e hm
  | f => f

theorem isCanonical_number (x : Binary64) : IsCanonical x.number := by
  have hread := isRead_number x
  generalize x.number = f at hread ⊢
  cases hread with
  | finite sign hpos => exact significand_bounds x
  | _ => trivial

theorem clamped_number (x : Binary64) : clamped x.number = x.number := by
  have hread := isRead_number x
  generalize x.number = f at hread ⊢
  cases hread with
  | finite sign hpos h => exact if_neg (by have := scale_le h; omega)
  | _ => rfl

/-- The double that a number is written as. -/
def ofNumber (f : UnpackedFloat) : Binary64 :=
  ⟨UInt64.ofBitVec (UnpackedFloat.pack Format.binary64 f)⟩

theorem finite_congr {sign : Sign} {m m' : Nat} {e e' : Int} {hm : 0 < m} {hm' : 0 < m'}
    (h : m = m') (h' : e = e') :
    UnpackedFloat.finite sign m e hm = UnpackedFloat.finite sign m' e' hm' := by
  subst h h'
  rfl

theorem unpack_normal {sign : Sign} {m : Nat} {e : Int} {hm : 0 < m}
    (hlow : 4503599627370496 ≤ m) (hhigh : m < 9007199254740992) (he : -1074 ≤ e) (he' : e ≤ 971) :
    UnpackedFloat.unpack Format.binary64 (UnpackedFloat.packComponents Format.binary64 sign
        (BitVec.ofNat 11 (e + 1075).toNat) (BitVec.ofNat 52 m)) = .finite sign m e hm := by
  have hexponent : (BitVec.ofNat 11 (e + 1075).toNat).toNat = (e + 1075).toNat :=
    Nat.mod_eq_of_lt (by omega)
  have hones : BitVec.ofNat 11 (e + 1075).toNat ≠ -1#11 := by
    intro h
    have := hexponent.symm.trans (congrArg BitVec.toNat h)
    simp at this
    omega
  have hnone : BitVec.ofNat 11 (e + 1075).toNat ≠ 0#11 := by
    intro h
    have := hexponent.symm.trans (congrArg BitVec.toNat h)
    simp at this
    omega
  have hbias : (Format.binary64.exponentBias : Int) = 1023 := rfl
  unfold UnpackedFloat.unpack
  simp only [UnpackedFloat.unpackExponent_packComponents,
    UnpackedFloat.unpackMantissa_packComponents, UnpackedFloat.unpackSign_packComponents,
    Sign.ofBitVec_toBitVec, hbias]
  rw [if_neg hones, if_neg hnone]
  refine finite_congr ?_ ?_
  · have hmantissa : (BitVec.ofNat 52 m).toNat = m % 4503599627370496 := BitVec.toNat_ofNat m 52
    rw [BitVec.toNat_append, ← Nat.shiftLeft_add_eq_or_of_lt (BitVec.isLt _), hmantissa,
      Nat.shiftLeft_eq]
    show 1 * 4503599627370496 + m % 4503599627370496 = m
    omega
  · rw [hexponent]
    omega

theorem unpack_subnormal {sign : Sign} {m : Nat} {hm : 0 < m} (hhigh : m < 4503599627370496) :
    UnpackedFloat.unpack Format.binary64 (UnpackedFloat.packComponents Format.binary64 sign
        0#11 (BitVec.ofNat 52 m)) = .finite sign m (-1074) hm := by
  have hmantissa : (BitVec.ofNat 52 m).toNat = m := Nat.mod_eq_of_lt hhigh
  have hne : BitVec.ofNat 52 m ≠ 0#52 := by
    intro h
    have := hmantissa.symm.trans (congrArg BitVec.toNat h)
    simp at this
    omega
  have hbias : (Format.binary64.exponentBias : Int) = 1023 := rfl
  unfold UnpackedFloat.unpack
  simp only [UnpackedFloat.unpackExponent_packComponents,
    UnpackedFloat.unpackMantissa_packComponents, UnpackedFloat.unpackSign_packComponents,
    Sign.ofBitVec_toBitVec, hbias]
  rw [if_neg (by decide), if_pos trivial, dif_neg hne]
  exact finite_congr hmantissa rfl

theorem unpack_packedInfinity (sign : Sign) :
    UnpackedFloat.unpack Format.binary64 (UnpackedFloat.packedInfinity Format.binary64 sign) =
      .infinity sign := by
  unfold UnpackedFloat.unpack UnpackedFloat.packedInfinity
  simp

/-- A number whose integer has the bits of a double is read again unless it is too large. -/
theorem number_ofNumber {f : UnpackedFloat} (h : IsCanonical f) :
    (ofNumber f).number = clamped f := by
  cases f with
  | notANumber => exact UnpackedFloat.unpack_packedNaN
  | infinity sign => exact unpack_packedInfinity sign
  | zero sign => exact UnpackedFloat.unpack_packedZero
  | finite sign m e hm =>
    obtain ⟨hhigh, hlow, hbits⟩ := h
    show UnpackedFloat.unpack Format.binary64
      (UnpackedFloat.pack Format.binary64 (.finite sign m e hm)) = _
    have hbiased : (e + Format.binary64.exponentBias + (52 : Nat)).toNat = (e + 1075).toNat := by
      rw [show (Format.binary64.exponentBias : Int) = 1023 from rfl]
      omega
    have hlog : m.log2 + 1 = Format.binary64.mantissaBits ↔ 4503599627370496 ≤ m := by
      rw [show Format.binary64.mantissaBits = 52 + 1 from rfl, Nat.add_right_cancel_iff,
        Nat.log2_eq_iff hm.ne']
      exact and_iff_left hhigh
    unfold UnpackedFloat.pack clamped
    simp only [hbiased, hlog]
    by_cases hlarge : 971 < e
    · rw [if_pos (by simp; omega), if_pos hlarge]
      exact unpack_packedInfinity sign
    · rw [if_neg (by simp; omega), if_neg hlarge]
      by_cases hnormal : 4503599627370496 ≤ m
      · rw [if_pos hnormal]
        exact unpack_normal hnormal hhigh hlow (by omega)
      · rw [if_neg hnormal]
        obtain rfl : e = -1074 := hbits.resolve_left hnormal
        exact unpack_subnormal (by omega)

end SymbolicCalculus.Binary64
