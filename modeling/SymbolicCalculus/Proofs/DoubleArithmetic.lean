import SymbolicCalculus.Proofs.DoubleRounding

/-!
# Arithmetic on doubles

Sums, differences, products and quotients of doubles are those of their numbers, rounded and then
infinite if they are too large (`number_add`, `number_sub`, `number_mul`, `number_div`). The order
of doubles is that of their numbers.
-/

namespace SymbolicCalculus.Binary64

open Float.Model
open Float.Model.UnpackedFloat (Sign Accuracy)

/-! ## Rounding after zeros are added -/

theorem log2_mul_two_pow {m : Nat} (hm : 0 < m) (k : Nat) : (m * 2 ^ k).log2 = m.log2 + k := by
  have hlow := Nat.log2_self_le hm.ne'
  have hhigh := Nat.lt_log2_self (n := m)
  refine (Nat.log2_eq_iff (Nat.mul_pos hm (Nat.two_pow_pos k)).ne').mpr ⟨?_, ?_⟩
  · rw [Nat.pow_add]
    exact Nat.mul_le_mul_right _ hlow
  · rw [Nat.add_right_comm, Nat.pow_add]
    exact Nat.mul_lt_mul_of_pos_right hhigh (Nat.two_pow_pos k)

/-- A number is rounded after so many zeros are added that none of its bits are missing. -/
theorem exists_round_eq (sign : Sign) {m : Nat} (e : Int) (hm : 0 < m) :
    ∃ k : Nat, UnpackedFloat.round Format.binary64 sign m e =
        UnpackedFloat.roundWithAccuracy Format.binary64 sign (m * 2 ^ k) (e - k) .exact ∧
      (4503599627370496 ≤ m * 2 ^ k ∨ e - k ≤ -1074) := by
  have htarget : Format.binary64.targetExponent (totalExponent m e) =
      max (m.log2 + e - 52) (-1074) := by
    unfold Format.targetExponent totalExponent
    rw [show Format.binary64.minExponent = -1074 from rfl,
      show (Format.binary64.mantissaBits : Int) = 53 from rfl]
    omega
  refine ⟨(e - max (m.log2 + e - 52) (-1074)).toNat, ?_, ?_⟩
  · unfold UnpackedFloat.round UnpackedFloat.decreaseExponent
    simp only [htarget, Nat.shiftLeft_eq]
  · by_cases hleast : e - (e - max (m.log2 + e - 52) (-1074)).toNat ≤ -1074
    · exact .inr hleast
    · left
      refine (Nat.le_log2 (k := 52) (Nat.mul_pos hm (Nat.two_pow_pos _)).ne').mp ?_
      rw [log2_mul_two_pow hm]
      omega

theorem isCanonical_round (sign : Sign) {m : Nat} (e : Int) (hm : 0 < m) :
    IsCanonical (UnpackedFloat.round Format.binary64 sign m e) := by
  obtain ⟨k, heq, hbits⟩ := exists_round_eq sign e hm
  rw [heq]
  exact isCanonical_roundWithAccuracy sign .exact hbits

theorem exists_round_eq_finite (sign : Sign) {m : Nat} {e : Int} (hm : 0 < m)
    (hlow : -1074 ≤ m.log2 + e) :
    ∃ m' e' hm', UnpackedFloat.round Format.binary64 sign m e = .finite sign m' e' hm' ∧
      m.log2 + e ≤ m'.log2 + e' := by
  obtain ⟨k, heq, -⟩ := exists_round_eq sign e hm
  have hlog := log2_mul_two_pow hm k
  obtain ⟨m', e', hm', heq', hle⟩ := exists_roundWithAccuracy_eq sign (e := e - k) .exact
    (Nat.mul_pos hm (Nat.two_pow_pos k)) (by omega)
  exact ⟨m', e', hm', heq.trans heq', by omega⟩

theorem isFinite_clamped_round (sign : Sign) {m : Nat} {e : Int} (hm : 0 < m) (h : Fits m e) :
    (clamped (UnpackedFloat.round Format.binary64 sign m e)).isFinite = true := by
  obtain ⟨k, heq, -⟩ := exists_round_eq sign e hm
  rw [heq]
  exact isFinite_clamped_roundWithAccuracy sign (h.mul_two_pow k)

theorem isNaN_roundWithAccuracy (sign : Sign) (m : Nat) (e : Int) (accuracy : Accuracy) :
    (UnpackedFloat.roundWithAccuracy Format.binary64 sign m e accuracy).isNaN = false := by
  rw [roundWithAccuracy_eq_signed, signed]
  split <;> rfl

/-- What becomes of an integer with a sign. -/
theorem normalize_cases (m : Int) (e : Int) (zeroSign : Sign) :
    UnpackedFloat.normalize Format.binary64 m e zeroSign = .zero zeroSign ∨
      ∃ sign, 0 < m.natAbs ∧ UnpackedFloat.normalize Format.binary64 m e zeroSign =
        UnpackedFloat.round Format.binary64 sign m.natAbs e := by
  unfold UnpackedFloat.normalize
  split
  · next h =>
    have hneg := Int.compare_eq_lt.mp h
    have habs : (-m).toNat = m.natAbs := by omega
    exact .inr ⟨.negative, by omega, by rw [habs]⟩
  · exact .inl rfl
  · next h =>
    have hpos := Int.compare_eq_gt.mp h
    have habs : m.toNat = m.natAbs := by omega
    exact .inr ⟨.positive, by omega, by rw [habs]⟩

theorem normalize_of_pos {m : Nat} (hm : 0 < m) (e : Int) (zeroSign : Sign) :
    UnpackedFloat.normalize Format.binary64 m e zeroSign =
      UnpackedFloat.round Format.binary64 .positive m e := by
  have hgt : compare (m : Int) 0 = .gt := Int.compare_eq_gt.mpr (by omega)
  unfold UnpackedFloat.normalize
  rw [hgt]
  rfl

theorem isCanonical_normalize (m : Int) (e : Int) (zeroSign : Sign) :
    IsCanonical (UnpackedFloat.normalize Format.binary64 m e zeroSign) := by
  rcases normalize_cases m e zeroSign with heq | ⟨sign, hpos, heq⟩
  · rw [heq]
    trivial
  · rw [heq]
    exact isCanonical_round sign e hpos

theorem isFinite_clamped_normalize {m : Int} {e : Int} (zeroSign : Sign) (h : Fits m.natAbs e) :
    (clamped (UnpackedFloat.normalize Format.binary64 m e zeroSign)).isFinite = true := by
  rcases normalize_cases m e zeroSign with heq | ⟨sign, hpos, heq⟩
  · rw [heq]
    rfl
  · rw [heq]
    exact isFinite_clamped_round sign hpos h

theorem isNaN_normalize (m : Int) (e : Int) (zeroSign : Sign) :
    (UnpackedFloat.normalize Format.binary64 m e zeroSign).isNaN = false := by
  rcases normalize_cases m e zeroSign with heq | ⟨sign, hpos, heq⟩
  · rw [heq]
    rfl
  · obtain ⟨k, heq', -⟩ := exists_round_eq sign e hpos
    rw [heq, heq']
    exact isNaN_roundWithAccuracy _ _ _ _

/-! ## Operations -/

theorem add_finite (s t : Sign) {m n : Nat} {d e : Int} (hm : 0 < m) (hn : 0 < n) :
    UnpackedFloat.add Format.binary64 (.finite s m d hm) (.finite t n e hn) =
      UnpackedFloat.normalize Format.binary64
        (s.apply (m * 2 ^ (d - min d e).toNat : Nat) + t.apply (n * 2 ^ (e - min d e).toNat : Nat))
        (min d e) .positive := by
  simp only [UnpackedFloat.add, UnpackedFloat.decreaseExponent, Nat.shiftLeft_eq]

theorem sub_finite (s t : Sign) {m n : Nat} {d e : Int} (hm : 0 < m) (hn : 0 < n) :
    UnpackedFloat.sub Format.binary64 (.finite s m d hm) (.finite t n e hn) =
      UnpackedFloat.normalize Format.binary64
        (s.apply (m * 2 ^ (d - min d e).toNat : Nat) - t.apply (n * 2 ^ (e - min d e).toNat : Nat))
        (min d e) .positive := by
  simp only [UnpackedFloat.sub, UnpackedFloat.decreaseExponent, Nat.shiftLeft_eq]

theorem isCanonical_ite {p : Prop} [Decidable p] {f g : UnpackedFloat} (hf : IsCanonical f)
    (hg : IsCanonical g) : IsCanonical (if p then f else g) := by
  by_cases h : p
  · rwa [if_pos h]
  · rwa [if_neg h]

theorem isCanonical_add {f g : UnpackedFloat} (hf : IsCanonical f) (hg : IsCanonical g) :
    IsCanonical (UnpackedFloat.add Format.binary64 f g) := by
  cases f with
  | notANumber => trivial
  | infinity s =>
    cases g with
    | infinity => exact isCanonical_ite trivial trivial
    | _ => trivial
  | zero s =>
    cases g with
    | finite => exact hg
    | zero => exact isCanonical_ite trivial trivial
    | _ => trivial
  | finite s m d hm =>
    cases g with
    | finite t n e hn =>
      rw [add_finite]
      exact isCanonical_normalize _ _ _
    | zero => exact hf
    | _ => trivial

theorem isCanonical_sub {f g : UnpackedFloat} (hf : IsCanonical f) (hg : IsCanonical g) :
    IsCanonical (UnpackedFloat.sub Format.binary64 f g) := by
  cases f with
  | notANumber => trivial
  | infinity s =>
    cases g with
    | infinity => exact isCanonical_ite trivial trivial
    | _ => trivial
  | zero s =>
    cases g with
    | finite => exact hg
    | zero => exact isCanonical_ite trivial trivial
    | _ => trivial
  | finite s m d hm =>
    cases g with
    | finite t n e hn =>
      rw [sub_finite]
      exact isCanonical_normalize _ _ _
    | zero => exact hf
    | _ => trivial

theorem isCanonical_mul {f g : UnpackedFloat} (hf : IsCanonical f) (hg : IsCanonical g) :
    IsCanonical (UnpackedFloat.mul Format.binary64 f g) := by
  cases f with
  | finite s m d hm =>
    cases g with
    | finite t n e hn =>
      refine isCanonical_roundWithAccuracy _ _ ?_
      obtain ⟨-, -, hf⟩ := hf
      obtain ⟨-, -, hg⟩ := hg
      rcases hf with hf | rfl
      · exact .inl (hf.trans (Nat.le_mul_of_pos_right m hn))
      · rcases hg with hg | rfl
        · exact .inl (hg.trans (Nat.le_mul_of_pos_left n hm))
        · exact .inr (by decide)
    | _ => trivial
  | _ => cases g <;> trivial

/-! ## Quotients -/

/-- The power of two that a quotient of integers is computed to. -/
def quotientExponent (m : Nat) (d : Int) (n : Nat) (e : Int) : Int :=
  min (d - e) (max (m.log2 + d - (n.log2 + e) - 53) (-1074))

theorem div_finite (s t : Sign) {m n : Nat} {d e : Int} (hm : 0 < m) (hn : 0 < n) :
    ∃ accuracy, UnpackedFloat.div Format.binary64 (.finite s m d hm) (.finite t n e hn) =
      UnpackedFloat.roundWithAccuracy Format.binary64 (s / t)
        (m * 2 ^ (d - e - quotientExponent m d n e).toNat / n) (quotientExponent m d n e)
        accuracy := by
  have htarget : min (d - e) (Format.binary64.targetExponent
      (totalExponent m d - totalExponent n e)) = quotientExponent m d n e := by
    unfold Format.targetExponent totalExponent quotientExponent
    rw [show Format.binary64.minExponent = -1074 from rfl,
      show (Format.binary64.mantissaBits : Int) = 53 from rfl]
    omega
  refine ⟨UnpackedFloat.accuracyOfFraction
    (m * 2 ^ (d - e - quotientExponent m d n e).toNat % n) n, ?_⟩
  simp only [UnpackedFloat.div, UnpackedFloat.divCore, htarget, Nat.shiftLeft_eq]

/-- The integer of a quotient has all the bits that the quotient of the powers of two promises. -/
theorem two_pow_le_quotient {m n k : Nat} {d e : Int} (hm : 0 < m) (hn : 0 < n)
    (hk : k + 1 + quotientExponent m d n e ≤ m.log2 + d - (n.log2 + e)) :
    2 ^ k ≤ m * 2 ^ (d - e - quotientExponent m d n e).toNat / n := by
  have hle : quotientExponent m d n e ≤ d - e := Int.min_le_left _ _
  rw [Nat.le_div_iff_mul_le hn]
  calc 2 ^ k * n ≤ 2 ^ k * 2 ^ (n.log2 + 1) := Nat.mul_le_mul_left _ Nat.lt_log2_self.le
    _ = 2 ^ (k + (n.log2 + 1)) := (Nat.pow_add 2 _ _).symm
    _ ≤ 2 ^ (m.log2 + (d - e - quotientExponent m d n e).toNat) :=
      Nat.pow_le_pow_right (by decide) (by omega)
    _ = 2 ^ m.log2 * 2 ^ (d - e - quotientExponent m d n e).toNat := Nat.pow_add 2 _ _
    _ ≤ m * 2 ^ (d - e - quotientExponent m d n e).toNat :=
      Nat.mul_le_mul_right _ (Nat.log2_self_le hm.ne')

theorem isCanonical_div {f g : UnpackedFloat} :
    IsCanonical (UnpackedFloat.div Format.binary64 f g) := by
  cases f with
  | finite s m d hm =>
    cases g with
    | finite t n e hn =>
      obtain ⟨accuracy, heq⟩ := div_finite s t hm hn (d := d) (e := e)
      rw [heq]
      refine isCanonical_roundWithAccuracy _ _ ?_
      by_cases hleast : quotientExponent m d n e ≤ -1074
      · exact .inr hleast
      · left
        refine two_pow_le_quotient (k := 52) hm hn ?_
        unfold quotientExponent at hleast ⊢
        omega
    | _ => trivial
  | _ => cases g <;> trivial

/-- A quotient of powers of two that is a double bounds the quotient from below. -/
theorem exists_div_eq_finite (s t : Sign) {m n : Nat} {d e : Int} (hm : 0 < m) (hn : 0 < n)
    (hlow : -1074 ≤ m.log2 + d - (n.log2 + e) - 1) :
    ∃ m' e' hm', UnpackedFloat.div Format.binary64 (.finite s m d hm) (.finite t n e hn) =
      .finite (s / t) m' e' hm' := by
  obtain ⟨accuracy, heq⟩ := div_finite s t hm hn (d := d) (e := e)
  have hk : 0 ≤ m.log2 + d - (n.log2 + e) - 1 - quotientExponent m d n e := by
    unfold quotientExponent
    omega
  have hle := two_pow_le_quotient (d := d) (e := e)
    (k := (m.log2 + d - (n.log2 + e) - 1 - quotientExponent m d n e).toNat) hm hn (by omega)
  have hpos := (Nat.two_pow_pos _).trans_le hle
  have hlog := (Nat.le_log2 hpos.ne').mpr hle
  obtain ⟨m', e', hm', heq', -⟩ := exists_roundWithAccuracy_eq (s / t) accuracy hpos
    (e := quotientExponent m d n e) (by omega)
  exact ⟨m', e', hm', heq.trans heq'⟩

/-! ## Operations on doubles -/

theorem number_toFloat (x : Binary64) : x.toFloat.toModel.unpack = x.number :=
  (number_ofNumber (isCanonical_number x)).trans (clamped_number x)

/-- An operation on floats that is computed on numbers, as an operation on doubles. -/
theorem number_arithmetic {op : Float → Float → Float}
    {compute : UnpackedFloat → UnpackedFloat → UnpackedFloat}
    (hop : ∀ a b, op a b = .ofModel (.pack (compute a.toModel.unpack b.toModel.unpack)))
    (hleft : ∀ f, compute .notANumber f = .notANumber)
    (hright : ∀ f, compute f .notANumber = .notANumber) {x y : Binary64}
    (hcanonical : IsCanonical (compute x.number y.number)) :
    (arithmetic op x y).number = clamped (compute x.number y.number) := by
  unfold arithmetic
  split
  · next hnan =>
    rw [isNaN_eq] at hnan
    have hx := UnpackedFloat.isNaN_iff.mp hnan
    rw [hx, hleft]
    rfl
  split
  · next hnan =>
    rw [isNaN_eq] at hnan
    have hy := UnpackedFloat.isNaN_iff.mp hnan
    rw [hy, hright]
    rfl
  have hresult : (op x.toFloat y.toFloat).toModel.unpack = clamped (compute x.number y.number) := by
    rw [hop, number_toFloat, number_toFloat]
    exact number_ofNumber hcanonical
  dsimp only
  split
  · next hnan =>
    have hnan' : (clamped (compute x.number y.number)).isNaN = true := by
      rw [← hresult]
      exact hnan
    rw [UnpackedFloat.isNaN_iff.mp hnan']
    rfl
  · exact hresult

theorem number_add (x y : Binary64) :
    (x + y).number = clamped (UnpackedFloat.add Format.binary64 x.number y.number) :=
  number_arithmetic (fun _ _ => rfl) (fun _ => rfl) (fun f => by cases f <;> rfl)
    (isCanonical_add (isCanonical_number x) (isCanonical_number y))

theorem number_sub (x y : Binary64) :
    (x - y).number = clamped (UnpackedFloat.sub Format.binary64 x.number y.number) :=
  number_arithmetic (fun _ _ => rfl) (fun _ => rfl) (fun f => by cases f <;> rfl)
    (isCanonical_sub (isCanonical_number x) (isCanonical_number y))

theorem number_mul (x y : Binary64) :
    (x * y).number = clamped (UnpackedFloat.mul Format.binary64 x.number y.number) :=
  number_arithmetic (fun _ _ => rfl) (fun _ => rfl) (fun f => by cases f <;> rfl)
    (isCanonical_mul (isCanonical_number x) (isCanonical_number y))

theorem number_div (x y : Binary64) :
    (x / y).number = clamped (UnpackedFloat.div Format.binary64 x.number y.number) :=
  number_arithmetic (fun _ _ => rfl) (fun _ => rfl) (fun f => by cases f <;> rfl) isCanonical_div

theorem lt_iff (x y : Binary64) : x < y ↔ x.number.lt y.number = true := by
  rw [← number_toFloat, ← number_toFloat]
  exact decide_eq_true_iff

theorem le_iff (x y : Binary64) : x ≤ y ↔ x.number.le y.number = true := by
  rw [← number_toFloat, ← number_toFloat]
  exact decide_eq_true_iff

theorem beq_iff (x y : Binary64) : (x == y) = true ↔
    x.number.beq y.number = true ∨ (x.number.isNaN = true ∧ y.number.isNaN = true) := by
  rw [← isNaN_eq, ← isNaN_eq, ← number_toFloat, ← number_toFloat, ← Bool.and_eq_true,
    ← Bool.or_eq_true]
  rfl

instance : ReflBEq Binary64 where
  rfl {x} := by
    refine (beq_iff x x).mpr ?_
    by_cases hnan : x.number = .notANumber
    · exact .inr ⟨UnpackedFloat.isNaN_iff.mpr hnan, UnpackedFloat.isNaN_iff.mpr hnan⟩
    · exact .inl ((UnpackedFloat.beq_iff_ne_notANumber_and_eq _ _).mpr ⟨hnan, hnan, .inl rfl⟩)

end SymbolicCalculus.Binary64
