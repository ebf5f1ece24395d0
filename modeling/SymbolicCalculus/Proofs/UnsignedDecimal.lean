import Mathlib.Tactic.SplitIfs
import SymbolicCalculus.Binary64.Text

/-!
# Decimals are not negative

The double nearest to a decimal without a sign has no sign either: `Binary64.isNegative_ofDecimal`.
Products and quotients of numbers without a sign are made from positive numbers, and rounding keeps
the sign.
-/

namespace SymbolicCalculus.Binary64

open Float.Model
open Float.Model.UnpackedFloat (Sign)

/-- The number has no minus sign; what is no number has none. -/
def IsUnsigned : UnpackedFloat → Prop
  | .notANumber => True
  | .infinity sign | .zero sign | .finite sign _ _ _ => sign = .positive

/-! ## Operations -/

theorem isUnsigned_ite {p : Prop} [Decidable p] {a b : UnpackedFloat} (ha : IsUnsigned a)
    (hb : IsUnsigned b) : IsUnsigned (if p then a else b) := by
  by_cases h : p
  · rwa [if_pos h]
  · rwa [if_neg h]

theorem isUnsigned_dite {p : Prop} [Decidable p] {a : p → UnpackedFloat} {b : ¬ p → UnpackedFloat}
    (ha : ∀ h, IsUnsigned (a h)) (hb : ∀ h, IsUnsigned (b h)) :
    IsUnsigned (if h : p then a h else b h) := by
  by_cases h : p
  · rw [dif_pos h]
    exact ha h
  · rw [dif_neg h]
    exact hb h

theorem isUnsigned_roundWithAccuracy (spec : Format) (m : Nat) (e : Int)
    (accuracy : UnpackedFloat.Accuracy) :
    IsUnsigned (UnpackedFloat.roundWithAccuracy spec .positive m e accuracy) :=
  isUnsigned_dite (fun _ => rfl) (fun _ => rfl)

theorem isUnsigned_mul (spec : Format) {a b : UnpackedFloat} (ha : IsUnsigned a)
    (hb : IsUnsigned b) : IsUnsigned (UnpackedFloat.mul spec a b) := by
  cases a <;> cases b <;> cases ha <;> cases hb <;>
    first | trivial | rfl | exact isUnsigned_roundWithAccuracy _ _ _ _

theorem isUnsigned_div (spec : Format) {a b : UnpackedFloat} (ha : IsUnsigned a)
    (hb : IsUnsigned b) : IsUnsigned (UnpackedFloat.div spec a b) := by
  cases a <;> cases b <;> cases ha <;> cases hb <;>
    first | trivial | rfl | exact isUnsigned_roundWithAccuracy _ _ _ _

theorem isUnsigned_ofNat (spec : Format) (n : Nat) : IsUnsigned (UnpackedFloat.ofNat spec n) := by
  unfold UnpackedFloat.ofNat UnpackedFloat.ofInt UnpackedFloat.normalize
  split
  · next h =>
    have := Int.compare_eq_lt.mp h
    omega
  · rfl
  · exact isUnsigned_roundWithAccuracy _ _ _ _

theorem isUnsigned_ofScientific (spec : Format) (m : Nat) (e : Int) :
    IsUnsigned (UnpackedFloat.ofScientific spec m e) := by
  unfold UnpackedFloat.ofScientific
  refine isUnsigned_dite (fun _ => rfl) fun hm => ?_
  refine isUnsigned_ite rfl (isUnsigned_ite rfl (isUnsigned_ite ?_ ?_))
  · exact isUnsigned_mul spec rfl rfl
  · exact isUnsigned_div spec rfl rfl

/-! ## Bits -/

theorem msb_packComponents (exponent : BitVec 11) (mantissa : BitVec 52) :
    (UnpackedFloat.packComponents Format.binary64 .positive exponent mantissa).msb = false := by
  simp only [UnpackedFloat.packComponents, BitVec.msb_append]
  rfl

theorem msb_pack {f : UnpackedFloat} (h : IsUnsigned f) :
    (UnpackedFloat.pack Format.binary64 f).msb = false := by
  cases f with
  | notANumber => exact msb_packComponents _ _
  | infinity sign =>
    obtain rfl : sign = .positive := h
    exact msb_packComponents _ _
  | zero sign =>
    obtain rfl : sign = .positive := h
    exact msb_packComponents _ _
  | finite sign m e hm =>
    obtain rfl : sign = .positive := h
    unfold UnpackedFloat.pack
    dsimp only
    split_ifs <;> exact msb_packComponents _ _

theorem unpackSign_eq_positive {b : BitVec 64} (h : b.msb = false) :
    Sign.ofBitVec (@UnpackedFloat.unpackSign Format.binary64 b) = .positive := by
  have hsign : @UnpackedFloat.unpackSign Format.binary64 b = 0#1 := by
    ext i hi
    obtain rfl : i = 0 := by omega
    have hlast : b.getLsbD 63 = false := (BitVec.msb_eq_getLsbD_last b).symm.trans h
    show (BitVec.extractLsb 63 63 b)[0] = (0#1)[0]
    rw [BitVec.getElem_extract, BitVec.getElem_zero]
    exact hlast
  rw [hsign]
  rfl

theorem isUnsigned_unpack {b : BitVec 64} (h : b.msb = false) :
    IsUnsigned (UnpackedFloat.unpack Format.binary64 b) := by
  have hsign := unpackSign_eq_positive h
  unfold UnpackedFloat.unpack
  refine isUnsigned_ite (isUnsigned_ite hsign trivial) (isUnsigned_ite ?_ hsign)
  exact isUnsigned_dite (fun _ => hsign) (fun _ => hsign)

/-- A number without a sign. -/
def IsPositive (x : Float) : Prop :=
  x.toBits.toBitVec.msb = false

theorem IsPositive.isUnsigned {x : Float} (h : IsPositive x) : IsUnsigned x.toModel.unpack :=
  isUnsigned_unpack h

theorem isPositive_of_isUnsigned {f : UnpackedFloat} (h : IsUnsigned f) :
    IsPositive (.ofModel (.pack f)) :=
  msb_pack h

theorem IsPositive.mul {x y : Float} (hx : IsPositive x) (hy : IsPositive y) :
    IsPositive (x * y) :=
  isPositive_of_isUnsigned (isUnsigned_mul _ hx.isUnsigned hy.isUnsigned)

theorem IsPositive.div {x y : Float} (hx : IsPositive x) (hy : IsPositive y) :
    IsPositive (x / y) :=
  isPositive_of_isUnsigned (isUnsigned_div _ hx.isUnsigned hy.isUnsigned)

theorem isPositive_toFloat (n : UInt64) : IsPositive n.toFloat :=
  isPositive_of_isUnsigned (isUnsigned_ofNat _ _)

theorem isPositive_powerOfTen : ∀ x ∈ Float.exactlyRepresentablePowersOfTen, IsPositive x := by
  unfold IsPositive
  decide

theorem isPositive_ofScientific (m : Nat) (s : Bool) (e : Nat) :
    IsPositive (Float.ofScientific m s e) := by
  unfold Float.ofScientific
  split
  · next h =>
    have hlt : e < Float.exactlyRepresentablePowersOfTen.size := Nat.lt_of_le_of_lt h.2 (by decide)
    have hpower := isPositive_powerOfTen _ (Array.getElem_mem hlt)
    dsimp only
    split
    · exact (isPositive_toFloat _).div hpower
    · exact (isPositive_toFloat _).mul hpower
  · exact isPositive_of_isUnsigned (isUnsigned_ofScientific _ _ _)

theorem isNegative_eq_msb (x : Binary64) : x.isNegative = x.bits.toBitVec.msb := by
  have hmask : x.bits.toBitVec &&& signMask.toBitVec =
      if x.bits.toBitVec.msb then signMask.toBitVec else 0 :=
    BitVec.and_twoPow x.bits.toBitVec 63
  have hbits : x.bits &&& signMask = if x.bits.toBitVec.msb then signMask else 0 := by
    refine UInt64.toBitVec_inj.mp (hmask.trans ?_)
    split <;> rfl
  rw [isNegative, hbits]
  cases x.bits.toBitVec.msb <;> decide

/-- **The double nearest to a decimal has no minus sign.** -/
theorem isNegative_ofDecimal (digits places : Nat) :
    (ofDecimal digits places).isNegative = false :=
  (isNegative_eq_msb _).trans (isPositive_ofScientific digits true places)

end SymbolicCalculus.Binary64
