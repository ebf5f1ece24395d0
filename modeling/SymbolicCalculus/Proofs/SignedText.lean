import SymbolicCalculus.Binary64.Text
import SymbolicCalculus.Proofs.CanonicalText

/-!
# The sign in the text of a double

A finite double is written as its magnitude, with a minus sign in front if its sign bit is set,
which is so for the negative zero too.
-/

namespace SymbolicCalculus.Binary64

/-! ## Fields of the magnitude -/

@[simp] theorem exponentField_magnitude (x : Binary64) :
    x.magnitude.exponentField = x.exponentField := by
  have hmask : (~~~signMask) >>> 52 &&& 0x7FF = 0x7FF := by decide
  rw [exponentField, exponentField, magnitude, UInt64.shiftRight_and, UInt64.and_assoc, hmask]

@[simp] theorem fractionField_magnitude (x : Binary64) :
    x.magnitude.fractionField = x.fractionField := by
  have hmask : ~~~signMask &&& 0xFFFFFFFFFFFFF = 0xFFFFFFFFFFFFF := by decide
  rw [fractionField, fractionField, magnitude, UInt64.and_assoc, hmask]

@[simp] theorem isNegative_magnitude (x : Binary64) : x.magnitude.isNegative = false := by
  have hmask : ~~~signMask &&& signMask = 0 := by decide
  rw [isNegative, magnitude, UInt64.and_assoc, hmask, UInt64.and_zero]
  rfl

theorem magnitude_eq_self {x : Binary64} (h : x.isNegative = false) : x.magnitude = x := by
  have hsign : x.bits &&& signMask = 0 := by simpa [isNegative] using h
  have hmask : signMask ||| ~~~signMask = -1 := by decide
  have hsplit : x.bits &&& (signMask ||| ~~~signMask) =
      x.bits &&& signMask ||| x.bits &&& ~~~signMask :=
    UInt64.toBitVec_inj.mp BitVec.and_or_distrib_left
  rw [hmask, hsign, UInt64.and_neg_one, UInt64.zero_or] at hsplit
  rw [magnitude, ← hsplit]

@[simp] theorem isFinite_magnitude (x : Binary64) : x.magnitude.isFinite = x.isFinite := by
  rw [isFinite, isFinite, exponentField_magnitude]

@[simp] theorem isNaN_magnitude (x : Binary64) : x.magnitude.isNaN = x.isNaN := by
  rw [isNaN, isNaN, isFinite_magnitude, fractionField_magnitude]

/-! ## Texts -/

theorem significand_magnitude (x : Binary64) : x.magnitude.significand = x.significand := by
  rw [significand, significand, exponentField_magnitude, fractionField_magnitude]

theorem scale_magnitude (x : Binary64) : x.magnitude.scale = x.scale := by
  rw [scale, scale, exponentField_magnitude]

theorem cell_magnitude (x : Binary64) : x.magnitude.cell = x.cell := by
  rw [cell, cell, significand_magnitude, scale_magnitude, exponentField_magnitude,
    fractionField_magnitude]

theorem magnitudeText_magnitude (x : Binary64) : x.magnitude.magnitudeText = x.magnitudeText := by
  rw [magnitudeText, magnitudeText, significand_magnitude, cell_magnitude]

/-- A negative double is written as its magnitude with a minus sign. -/
theorem text_of_isNegative {x : Binary64} (hfinite : x.isFinite = true)
    (hneg : x.isNegative = true) : x.text = '-' :: x.magnitude.text := by
  have hnan : x.isNaN = false := by simp [isNaN, hfinite]
  simp [text, hnan, hfinite, hneg, magnitudeText_magnitude]

/-- A finite double is written as a number if its magnitude is. -/
theorem isWritten_of_readsBack {x : Binary64} (hfinite : x.isFinite = true)
    (h : Numeral.ReadsBack x.magnitude) : Numeral.IsWritten x := by
  unfold Numeral.IsWritten
  split
  · next hneg => exact ⟨text_of_isNegative hfinite hneg, h⟩
  · next hneg =>
    have hsign : x.isNegative = false := by simpa [Numeral.isNegative] using hneg
    rwa [magnitude_eq_self hsign] at h

end SymbolicCalculus.Binary64
