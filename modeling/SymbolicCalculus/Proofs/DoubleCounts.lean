import SymbolicCalculus.Proofs.DoubleArithmetic

/-!
# Counting with doubles

How often a factor occurs is counted in doubles, and so are exponents. A count from one on stays one
under sums, products and whole quotients, however they are rounded (`one_le_add`, `one_le_mul`,
`one_le_div`). A count may overflow, and an infinite one is told apart from the finite ones.
Differences of finite counts and greatest common divisors are finite (`isFinite_sub`,
`isFinite_gcd?`).
-/

namespace SymbolicCalculus.Binary64

open Float.Model
open Float.Model.UnpackedFloat (Sign)

theorem number_natCast_zero : (Nat.cast 0 : Binary64).number = .zero .positive := by
  rw [show (Nat.cast 0 : Binary64) = ⟨0⟩ by decide]
  rfl

theorem number_natCast_one :
    (Nat.cast 1 : Binary64).number = .finite .positive 4503599627370496 (-52) (by decide) := by
  rw [show (Nat.cast 1 : Binary64) = ⟨0x3FF0000000000000⟩ by decide]
  rfl

/-! ## Above zero and from one on -/

/-- Is the number above zero? -/
def IsAboveZero : UnpackedFloat → Prop
  | .infinity sign => sign = .positive
  | .finite sign _ _ _ => sign = .positive
  | _ => False

/-- Is the number one or above? -/
def IsFromOne : UnpackedFloat → Prop
  | .infinity sign => sign = .positive
  | .finite sign m e _ => sign = .positive ∧ 0 ≤ m.log2 + e
  | _ => False

theorem zero_lt_iff (x : Binary64) : Nat.cast 0 < x ↔ IsAboveZero x.number := by
  rw [lt_iff, number_natCast_zero]
  cases x.number with
  | notANumber => simp [UnpackedFloat.lt, UnpackedFloat.compare, IsAboveZero]
  | zero s => simp [UnpackedFloat.lt, UnpackedFloat.compare, IsAboveZero]
  | infinity s | finite s => cases s <;> simp [UnpackedFloat.lt, UnpackedFloat.compare, IsAboveZero]

theorem le_zero_iff (x : Binary64) :
    x ≤ Nat.cast 0 ↔ x.number.isNaN = false ∧ ¬ IsAboveZero x.number := by
  rw [le_iff, number_natCast_zero]
  cases x.number with
  | notANumber =>
    simp [UnpackedFloat.le, UnpackedFloat.compare, IsAboveZero, UnpackedFloat.isNaN]
  | zero s =>
    simp [UnpackedFloat.le, UnpackedFloat.compare, IsAboveZero, UnpackedFloat.isNaN]
  | infinity s | finite s =>
    cases s <;> simp [UnpackedFloat.le, UnpackedFloat.compare, IsAboveZero, UnpackedFloat.isNaN]

theorem log2_le_of_lt {m : Nat} (h : m < 9007199254740992) : m.log2 ≤ 52 := by
  rcases Nat.eq_zero_or_pos m with rfl | hpos
  · simp
  · exact Nat.le_of_lt_succ ((Nat.log2_lt hpos.ne').mpr h)

theorem log2_mono {m n : Nat} (hm : 0 < m) (h : m ≤ n) : m.log2 ≤ n.log2 :=
  (Nat.le_log2 (hm.trans_le h).ne').mpr ((Nat.log2_self_le hm.ne').trans h)

theorem one_le_iff (x : Binary64) : Nat.cast 1 ≤ x ↔ IsFromOne x.number := by
  have hcanonical := isCanonical_number x
  rw [le_iff, number_natCast_one]
  generalize x.number = f at hcanonical ⊢
  cases f with
  | notANumber => simp [UnpackedFloat.le, UnpackedFloat.compare, IsFromOne]
  | zero s => simp [UnpackedFloat.le, UnpackedFloat.compare, IsFromOne]
  | infinity s => cases s <;> simp [UnpackedFloat.le, UnpackedFloat.compare, IsFromOne]
  | finite s m e hm =>
    cases s with
    | negative => simp [UnpackedFloat.le, UnpackedFloat.compare, IsFromOne]
    | positive =>
      obtain ⟨hlt, hexp, hbits⟩ := hcanonical
      have hlog := log2_le_of_lt hlt
      have hfull : 4503599627370496 ≤ m ↔ 52 ≤ m.log2 := (Nat.le_log2 (k := 52) hm.ne').symm
      simp only [UnpackedFloat.le, UnpackedFloat.compare, IsFromOne, Option.any_some, true_and]
      rw [Ordering.isLE_then_iff_or, Int.compare_eq_lt, Int.compare_eq_eq, Nat.isLE_compare]
      omega

theorem IsFromOne.isAboveZero {f : UnpackedFloat} (h : IsFromOne f) : IsAboveZero f := by
  cases f with
  | infinity => exact h
  | finite => exact h.1
  | _ => exact h

theorem IsFromOne.clamped {f : UnpackedFloat} (h : IsFromOne f) : IsFromOne (clamped f) := by
  cases f with
  | finite s m e hm =>
    unfold Binary64.clamped
    dsimp only
    split
    · exact h.1
    · exact h
  | _ => exact h

/-! ## Sums and products of counts -/

theorem isFromOne_add {f g : UnpackedFloat} (hf : IsFromOne f) (hg : IsFromOne g) :
    IsFromOne (UnpackedFloat.add Format.binary64 f g) := by
  cases f with
  | infinity s =>
    cases g with
    | infinity t =>
      obtain rfl : s = .positive := hf
      obtain rfl : t = .positive := hg
      rfl
    | finite => exact hf
    | _ => contradiction
  | finite s m d hm =>
    cases g with
    | infinity => exact hg
    | finite t n e hn =>
      obtain ⟨rfl, hf⟩ := hf
      obtain ⟨rfl, hg⟩ := hg
      have hpos : 0 < m * 2 ^ (d - min d e).toNat := Nat.mul_pos hm (Nat.two_pow_pos _)
      have hlog := log2_mul_two_pow hm (d - min d e).toNat
      have hmono := log2_mono hpos (Nat.le_add_right _ (n * 2 ^ (e - min d e).toNat))
      have hle := Int.min_le_left d e
      obtain ⟨m', e', hm', heq, hlow⟩ := exists_round_eq_finite .positive (e := min d e)
        (hpos.trans_le (Nat.le_add_right _ (n * 2 ^ (e - min d e).toNat))) (by omega)
      rw [add_finite]
      simp only [Sign.apply, ← Int.natCast_add]
      rw [normalize_of_pos (hpos.trans_le (Nat.le_add_right _ _)), heq]
      exact ⟨rfl, by omega⟩
    | _ => contradiction
  | _ => contradiction

theorem one_le_add {x y : Binary64} (hx : Nat.cast 1 ≤ x) (hy : Nat.cast 1 ≤ y) :
    Nat.cast 1 ≤ x + y := by
  rw [one_le_iff] at hx hy ⊢
  rw [number_add]
  exact (isFromOne_add hx hy).clamped

theorem isFromOne_mul {f g : UnpackedFloat} (hf : IsFromOne f) (hg : IsFromOne g) :
    IsFromOne (UnpackedFloat.mul Format.binary64 f g) := by
  cases f with
  | infinity s =>
    obtain rfl : s = .positive := hf
    cases g with
    | infinity t =>
      obtain rfl : t = .positive := hg
      rfl
    | finite t =>
      obtain ⟨rfl, -⟩ := hg
      rfl
    | _ => contradiction
  | finite s m d hm =>
    obtain ⟨rfl, hf⟩ := hf
    cases g with
    | infinity t =>
      obtain rfl : t = .positive := hg
      rfl
    | finite t n e hn =>
      obtain ⟨rfl, hg⟩ := hg
      have hlog : m.log2 + n.log2 ≤ (m * n).log2 := by
        rw [Nat.le_log2 (Nat.mul_pos hm hn).ne', Nat.pow_add]
        exact Nat.mul_le_mul (Nat.log2_self_le hm.ne') (Nat.log2_self_le hn.ne')
      obtain ⟨m', e', hm', heq, hlow⟩ := exists_roundWithAccuracy_eq .positive (e := d + e) .exact
        (Nat.mul_pos hm hn) (by omega)
      show IsFromOne (UnpackedFloat.roundWithAccuracy Format.binary64 .positive _ _ _)
      rw [heq]
      exact ⟨rfl, by omega⟩
    | _ => contradiction
  | _ => contradiction

theorem one_le_mul {x y : Binary64} (hx : Nat.cast 1 ≤ x) (hy : Nat.cast 1 ≤ y) :
    Nat.cast 1 ≤ x * y := by
  rw [one_le_iff] at hx hy ⊢
  rw [number_mul]
  exact (isFromOne_mul hx hy).clamped

/-! ## Integers -/

theorem isFinite_of_isWhole {x : Binary64} (h : Scalar.isWhole x = true) : x.isFinite = true := by
  by_contra hinf
  have hnone : whole? x = none := if_pos (by simpa using hinf)
  rw [Scalar.isWhole, show Scalar.whole? x = whole? x from rfl, hnone] at h
  contradiction

theorem fits_significand {x : Binary64} (h : x.isFinite = true) : Fits x.significand x.scale := by
  have hexp : x.exponentField < 2047 := by
    have := exponentField_le x
    have : x.exponentField ≠ 2047 := by simpa [isFinite] using h
    omega
  exact fits_of_le (by have := (significand_bounds x).1; omega) (scale_le hexp)

/-- What integer a double is. -/
theorem whole?_eq_some {x : Binary64} {i : Int} (h : whole? x = some i) :
    (0 ≤ x.scale ∧ i.natAbs = x.significand * 2 ^ x.scale.toNat) ∨
      (x.scale < 0 ∧ i.natAbs * 2 ^ (-x.scale).toNat = x.significand) := by
  unfold whole? at h
  split at h
  · contradiction
  · obtain ⟨_, hmagnitude, rfl⟩ := Option.map_eq_some_iff.mp h
    obtain ⟨n, hn, hcast⟩ := Option.bind_eq_some_iff.mp hmagnitude
    obtain rfl := Option.some.inj hcast
    have habs : (if x.isNegative = true then -(n : Int) else n).natAbs = n := by
      split <;> simp
    rw [habs]
    split at hn
    · next hscale =>
      obtain rfl := Option.some.inj hn
      exact .inl ⟨hscale, Nat.shiftLeft_eq _ _⟩
    · next hscale =>
      dsimp only at hn
      split at hn
      · next hdvd =>
        obtain rfl := Option.some.inj hn
        rw [Nat.one_shiftLeft] at hdvd ⊢
        exact .inr ⟨by omega, Nat.div_mul_cancel (Nat.dvd_of_mod_eq_zero hdvd)⟩
      · contradiction

theorem isFromOne_of_isWhole {x : Binary64} (h : Scalar.isWhole x = true)
    (hpos : IsAboveZero x.number) : IsFromOne x.number := by
  have hfinite := isFinite_of_isWhole h
  obtain ⟨i, hi⟩ := Option.isSome_iff_exists.mp h
  have hwhole := whole?_eq_some hi
  have hread := isRead_number x
  rw [isFinite_eq] at hfinite
  generalize x.number = f at hread hpos hfinite ⊢
  cases hread with
  | finite s hsig hexp =>
    refine ⟨hpos, ?_⟩
    rcases hwhole with ⟨hscale, -⟩ | ⟨hscale, hn⟩
    · omega
    · have hle : 2 ^ (-x.scale).toNat ≤ x.significand := by
        rw [← hn]
        refine Nat.le_mul_of_pos_left _ (Nat.pos_of_ne_zero fun hzero => ?_)
        rw [hzero, Nat.zero_mul] at hn
        omega
      have := (Nat.le_log2 hsig.ne').mpr hle
      omega
  | _ => contradiction

theorem isAboveZero_of_isPositiveWhole {k : Binary64} (h : Scalar.isPositiveWhole k = true) :
    IsAboveZero k.number := by
  have hpos : Nat.cast 0 < k := of_decide_eq_true (Bool.and_eq_true_iff.mp h).2
  exact (zero_lt_iff k).mp hpos

theorem one_le_of_isPositiveWhole {k : Binary64} (h : Scalar.isPositiveWhole k = true) :
    Nat.cast 1 ≤ k :=
  (one_le_iff k).mpr (isFromOne_of_isWhole (Bool.and_eq_true_iff.mp h).1
    (isAboveZero_of_isPositiveWhole h))

theorem isFinite_of_isPositiveWhole {k : Binary64} (h : Scalar.isPositiveWhole k = true) :
    k.isFinite = true :=
  isFinite_of_isWhole (Bool.and_eq_true_iff.mp h).1

/-- The number of a finite double above zero. -/
theorem exists_number_eq {x : Binary64} (hfinite : x.isFinite = true)
    (hpos : IsAboveZero x.number) :
    ∃ m e hm, x.number = .finite .positive m e hm ∧ Fits m e ∧ m < 9007199254740992 := by
  have hfits := fits_significand hfinite
  have hlt := (significand_bounds x).1
  have hread := isRead_number x
  rw [isFinite_eq] at hfinite
  generalize x.number = f at hread hpos hfinite ⊢
  cases hread with
  | finite s hsig hexp =>
    obtain rfl : s = .positive := hpos
    exact ⟨_, _, hsig, rfl, hfits, hlt⟩
  | _ => contradiction

/-- A count divided by a whole number is not rounded to zero, so if it is whole it is a count. -/
theorem one_le_div {x k : Binary64} (hx : Nat.cast 1 ≤ x) (hk : Scalar.isPositiveWhole k = true)
    (h : Scalar.isWhole (x / k) = true) : Nat.cast 1 ≤ x / k := by
  rw [one_le_iff] at hx ⊢
  refine isFromOne_of_isWhole h ?_
  obtain ⟨n, e, hn, hnumber, hfits, hlt⟩ :=
    exists_number_eq (isFinite_of_isPositiveWhole hk) (isAboveZero_of_isPositiveWhole hk)
  rw [number_div, hnumber]
  generalize x.number = f at hx ⊢
  cases f with
  | infinity s =>
    obtain rfl : s = .positive := hx
    rfl
  | finite s m d hm =>
    obtain ⟨rfl, hx⟩ := hx
    have hlog := log2_le_of_lt hlt
    have hexp := hfits.1
    obtain ⟨m', e', hm', heq⟩ := exists_div_eq_finite .positive .positive (d := d) (e := e) hm hn
      (by omega)
    rw [heq, clamped]
    split <;> rfl
  | _ => contradiction

/-! ## None at all -/

/-- Is the number a zero of either sign? -/
def IsZero (f : UnpackedFloat) : Prop :=
  ∃ sign, f = .zero sign

theorem isZero_natCast_zero : IsZero (Nat.cast 0 : Binary64).number :=
  ⟨.positive, number_natCast_zero⟩

theorem not_one_le_of_isZero {x : Binary64} (h : IsZero x.number) : ¬ Nat.cast 1 ≤ x := by
  obtain ⟨sign, hsign⟩ := h
  rw [one_le_iff, hsign]
  exact id

theorem isZero_add {x y : Binary64} (hx : IsZero x.number) (hy : IsZero y.number) :
    IsZero (x + y).number := by
  obtain ⟨s, hs⟩ := hx
  obtain ⟨t, ht⟩ := hy
  rw [number_add, hs, ht]
  cases s <;> cases t <;> exact ⟨_, rfl⟩

theorem isZero_mul {k x : Binary64} (hk : k.isFinite = true) (hx : IsZero x.number) :
    IsZero (k * x).number := by
  obtain ⟨t, ht⟩ := hx
  rw [isFinite_eq] at hk
  rw [number_mul, ht]
  generalize k.number = f at hk ⊢
  cases f with
  | zero | finite => exact ⟨_, rfl⟩
  | _ => contradiction

/-! ## The smaller of two numbers -/

theorem minimum_eq_or (x y : Binary64) : minimum x y = x ∨ minimum x y = y := by
  unfold minimum
  split
  · exact .inl rfl
  split
  · exact .inr rfl
  split
  · exact .inr rfl
  · exact .inl rfl

theorem isNaN_minimum {x y : Binary64} (hy : y.isNaN = false) : (minimum x y).isNaN = false := by
  unfold minimum
  rw [hy, if_neg Bool.false_ne_true]
  split
  · exact hy
  · next hx =>
    split
    · exact hy
    · simpa using hx

theorem isNaN_of_one_le {x : Binary64} (hx : Nat.cast 1 ≤ x) : x.isNaN = false := by
  rw [one_le_iff] at hx
  rw [isNaN_eq]
  generalize x.number = f at hx ⊢
  cases f with
  | notANumber => contradiction
  | _ => rfl

/-- Of a count and zero, zero is the smaller. -/
theorem minimum_of_isZero {x y : Binary64} (hx : IsZero x.number) (hy : Nat.cast 1 ≤ y) :
    minimum x y = x := by
  obtain ⟨sign, hsign⟩ := hx
  have hxnan : x.isNaN = false := by
    rw [isNaN_eq, hsign]
    rfl
  have hlt : ¬ y.toFloat < x.toFloat := by
    intro hlt
    have hlt : y.number.lt x.number = true := (lt_iff y x).mp hlt
    rw [one_le_iff] at hy
    rw [hsign] at hlt
    generalize y.number = f at hy hlt
    cases f with
    | infinity s =>
      obtain rfl : s = .positive := hy
      contradiction
    | finite s m e hm =>
      obtain ⟨rfl, -⟩ := hy
      contradiction
    | _ => contradiction
  unfold minimum
  rw [isNaN_of_one_le hy, hxnan, if_neg Bool.false_ne_true, if_neg Bool.false_ne_true, if_neg hlt]

/-- A count from which none is taken. -/
theorem one_le_sub {x y : Binary64} (hx : Nat.cast 1 ≤ x) (hy : IsZero y.number) :
    Nat.cast 1 ≤ x - y := by
  obtain ⟨sign, hsign⟩ := hy
  rw [one_le_iff] at hx ⊢
  rw [number_sub, hsign]
  refine IsFromOne.clamped ?_
  generalize x.number = f at hx ⊢
  cases f with
  | infinity | finite => exact hx
  | _ => contradiction

/-! ## Infinite counts -/

/-- A number above zero is finite or infinite. -/
theorem isFinite_or_infinite {x : Binary64} (h : IsAboveZero x.number) :
    x.isFinite = true ∨ x.number = .infinity .positive := by
  rw [isFinite_eq]
  generalize x.number = f at h ⊢
  cases f with
  | infinity s =>
    obtain rfl : s = .positive := h
    exact .inr rfl
  | finite => exact .inl rfl
  | _ => contradiction

theorem isAboveZero_of_not_le {x : Binary64} (hnan : x.isNaN = false) (h : ¬ x ≤ Nat.cast 0) :
    IsAboveZero x.number := by
  rw [le_zero_iff, ← isNaN_eq] at h
  exact not_not.mp fun habove => h ⟨hnan, habove⟩

section infinite

variable {x : Binary64} (hx : x.number = .infinity .positive)

include hx

theorem not_le_zero_of_infinite : ¬ x ≤ Nat.cast 0 := by
  rw [le_zero_iff, hx]
  exact fun h => h.2 rfl

theorem beq_one_of_infinite : (x == Nat.cast 1) = false := by
  rw [Bool.eq_false_iff, ne_eq, beq_iff, hx, number_natCast_one]
  simp [UnpackedFloat.beq, UnpackedFloat.compare, UnpackedFloat.isNaN]

theorem sub_infinite_lt_zero {k : Binary64} (hk : k.isFinite = true) : k - x < Nat.cast 0 := by
  rw [isFinite_eq] at hk
  rw [lt_iff, number_sub, hx, number_natCast_zero]
  generalize k.number = f at hk ⊢
  cases f with
  | zero | finite => rfl
  | _ => contradiction

theorem isWhole_infinite_div {k : Binary64} (hk : k.isFinite = true) :
    Scalar.isWhole (x / k) = false := by
  rw [Bool.eq_false_iff]
  intro hwhole
  have hfinite := isFinite_of_isWhole hwhole
  rw [isFinite_eq] at hk hfinite
  rw [number_div, hx] at hfinite
  generalize k.number = f at hk hfinite
  cases f <;> contradiction

/-- However many are taken from infinitely many, as many are left, or as many are taken. -/
theorem infinite_sub (y : Binary64) (hy : y.isNaN = false) :
    y.number = .infinity .positive ∨ (x - y).number = .infinity .positive := by
  rw [isNaN_eq] at hy
  rw [number_sub, hx]
  generalize y.number = f at hy ⊢
  cases f with
  | infinity s =>
    cases s with
    | positive => exact .inl rfl
    | negative => exact .inr rfl
  | notANumber => contradiction
  | _ => exact .inr rfl

end infinite

/-! ## Differences of finite numbers -/

theorem isNaN_sub {x y : Binary64} (hx : x.isFinite = true) (hy : y.isNaN = false) :
    (x - y).isNaN = false := by
  have hclamped : ∀ {f : UnpackedFloat}, f.isNaN = false → (clamped f).isNaN = false := by
    intro f hf
    cases f with
    | finite =>
      unfold clamped
      dsimp only
      split <;> rfl
    | _ => exact hf
  rw [isFinite_eq] at hx
  rw [isNaN_eq] at hy ⊢
  rw [number_sub]
  refine hclamped ?_
  generalize x.number = f at hx ⊢
  generalize y.number = g at hy ⊢
  cases f with
  | zero s =>
    cases g with
    | notANumber => contradiction
    | zero t => cases s <;> cases t <;> rfl
    | _ => rfl
  | finite s m d hm =>
    cases g with
    | notANumber => contradiction
    | finite t n e hn =>
      rw [sub_finite]
      exact isNaN_normalize _ _ _
    | _ => rfl
  | _ => contradiction

/-- The difference of two finite numbers above zero is no larger than they are. -/
theorem isFinite_sub {x y : Binary64} (hx : x.isFinite = true) (hy : y.isFinite = true)
    (hx' : IsAboveZero x.number) (hy' : IsAboveZero y.number) : (x - y).isFinite = true := by
  obtain ⟨m, d, hm, hxnumber, hxfits, -⟩ := exists_number_eq hx hx'
  obtain ⟨n, e, hn, hynumber, hyfits, -⟩ := exists_number_eq hy hy'
  have hxfits' := hxfits.mul_two_pow (d - min d e).toNat
  have hyfits' := hyfits.mul_two_pow (e - min d e).toNat
  rw [show d - ((d - min d e).toNat : Int) = min d e by omega] at hxfits'
  rw [show e - ((e - min d e).toNat : Int) = min d e by omega] at hyfits'
  rw [isFinite_eq, number_sub, hxnumber, hynumber, sub_finite]
  refine isFinite_clamped_normalize _ ?_
  simp only [Sign.apply]
  rcases Nat.le_total (m * 2 ^ (d - min d e).toNat) (n * 2 ^ (e - min d e).toNat) with hle | hle
  · exact hyfits'.mono (by omega)
  · exact hxfits'.mono (by omega)

/-! ## Greatest common divisors -/

theorem fits_of_whole? {x : Binary64} {i : Int} (h : whole? x = some i) : Fits i.natAbs 0 := by
  have hfits := fits_significand (isFinite_of_isWhole (Option.isSome_of_eq_some h))
  rcases whole?_eq_some h with ⟨hscale, habs⟩ | ⟨-, habs⟩
  · have hshift := hfits.mul_two_pow x.scale.toNat
    rw [show x.scale - (x.scale.toNat : Int) = 0 by omega] at hshift
    rwa [habs]
  · refine fits_of_le ?_ (by decide)
    have hle : i.natAbs ≤ x.significand := habs ▸ Nat.le_mul_of_pos_right _ (Nat.two_pow_pos _)
    have := (significand_bounds x).1
    omega

theorem fits_of_number {x : Binary64} {sign : Sign} {m : Nat} {e : Int} {hm : 0 < m}
    (h : x.number = .finite sign m e hm) : Fits m e := by
  have hfinite : x.isFinite = true := by
    rw [isFinite_eq, h]
    rfl
  have hfits := fits_significand hfinite
  have hread := isRead_number x
  rw [h] at hread
  cases hread with
  | finite => exact hfits

/-- The double of an integer with up to 64 bits. -/
theorem isFinite_toFloat {n : Nat} (h : n < 18446744073709551616) (hfits : Fits n 0) :
    (ofFloat n.toUInt64.toFloat).isFinite = true := by
  have hnat : n.toUInt64.toNat = n := Nat.mod_eq_of_lt h
  rw [isFinite_eq]
  show (ofNumber
    (UnpackedFloat.normalize Format.binary64 n.toUInt64.toNat 0 .positive)).number.isFinite = true
  rw [number_ofNumber (isCanonical_normalize _ _ _), hnat]
  exact isFinite_clamped_normalize _ hfits

/-- A double is the same after a multiplication by one. -/
theorem isFinite_mul_one {x : Binary64} (h : x.isFinite = true) :
    (clamped (UnpackedFloat.mul Format.binary64 x.number (Nat.cast 1 : Binary64).number)).isFinite =
      true := by
  rw [number_natCast_one]
  rw [isFinite_eq] at h
  cases hnumber : x.number with
  | zero => rfl
  | finite s m e hm =>
    exact isFinite_clamped_roundWithAccuracy _ ((fits_of_number hnumber).mul_two_pow 52)
  | infinity | notANumber =>
    rw [hnumber] at h
    contradiction

theorem ofScientific_eq {n : Nat} (hn : 0 < n) :
    UnpackedFloat.ofScientific Format.binary64 n 0 =
      UnpackedFloat.roundWithAccuracy Format.binary64 .positive (n * 2 ^ 53) (-53) .exact := by
  unfold UnpackedFloat.ofScientific
  rw [dif_neg hn.ne', if_neg (by decide), if_neg (by simp), if_pos (by decide)]
  simp only [UnpackedFloat.mul, Nat.shiftLeft_eq]
  rw [show (0 : Int).toNat = 0 from rfl, Nat.pow_zero, Nat.mul_one]
  rfl

/-- An integer that is not above the largest double is not converted to infinity. -/
theorem isFinite_natCast {n : Nat} (h : Fits n 0) : (Nat.cast n : Binary64).isFinite = true := by
  show (ofFloat (Float.ofScientific n false 0)).isFinite = true
  unfold Float.ofScientific
  split
  · next hsmall =>
    have hfinite := isFinite_toFloat (by omega) h
    have hone : Float.exactlyRepresentablePowersOfTen[0].toModel.unpack =
        (Nat.cast 1 : Binary64).number := by
      rw [show (Nat.cast 1 : Binary64) = ⟨0x3FF0000000000000⟩ by decide]
      exact number_toFloat ⟨0x3FF0000000000000⟩
    rw [isFinite_eq]
    show (ofNumber (UnpackedFloat.mul Format.binary64 (ofFloat n.toUInt64.toFloat).number
      Float.exactlyRepresentablePowersOfTen[0].toModel.unpack)).number.isFinite = true
    rw [hone, number_ofNumber (isCanonical_mul (isCanonical_number _) (isCanonical_number _))]
    exact isFinite_mul_one hfinite
  · show (ofNumber (UnpackedFloat.ofScientific Format.binary64 n 0)).isFinite = true
    rcases Nat.eq_zero_or_pos n with rfl | hn
    · decide
    · have hbits : 4503599627370496 ≤ n * 2 ^ 53 := by omega
      rw [ofScientific_eq hn, isFinite_eq,
        number_ofNumber (isCanonical_roundWithAccuracy _ _ (.inl hbits))]
      exact isFinite_clamped_roundWithAccuracy _ (h.mul_two_pow 53)

/-- The greatest common divisor of two integers is one of the two or not larger than both. -/
theorem isFinite_gcd? {x y k : Binary64} (h : Scalar.gcd? x y = some k) : k.isFinite = true := by
  unfold Scalar.gcd? at h
  split at h
  · next i j hi hj =>
    obtain rfl := Option.some.inj h
    refine isFinite_natCast ?_
    by_cases hzero : i = 0
    · rw [hzero, Int.gcd_zero_left]
      exact fits_of_whole? hj
    · have hle := Nat.le_of_dvd (Int.natAbs_pos.mpr hzero) (Int.gcd_dvd_natAbs_left i j)
      exact (fits_of_whole? hi).mono hle
  · contradiction

/-! ## Signs and equal values -/

theorem isFinite_neg (x : Binary64) : (-x).isFinite = x.isFinite := by
  have hmask : @UnpackedFloat.unpackExponent Format.binary64 signMask.toBitVec = 0#11 := by decide
  have hfield : (-x).exponentField = x.exponentField := by
    rw [exponentField_eq, exponentField_eq]
    have hxor : @UnpackedFloat.unpackExponent Format.binary64 (-x).bits.toBitVec =
        @UnpackedFloat.unpackExponent Format.binary64 x.bits.toBitVec ^^^
          @UnpackedFloat.unpackExponent Format.binary64 signMask.toBitVec := by
      show @UnpackedFloat.unpackExponent Format.binary64 (x.bits.toBitVec ^^^ signMask.toBitVec) = _
      ext i hi
      simp [UnpackedFloat.unpackExponent]
    rw [hxor, hmask, BitVec.xor_zero]
  rw [isFinite, isFinite, hfield]

/-- Equal values are the same number, or two zeros, or both no number. -/
theorem isFinite_eq_of_beq {x y : Binary64} (h : (x == y) = true) : x.isFinite = y.isFinite := by
  rw [isFinite_eq, isFinite_eq]
  rcases (beq_iff x y).mp h with h | ⟨hx, hy⟩
  · rw [UnpackedFloat.beq_iff_ne_notANumber_and_eq] at h
    obtain ⟨-, -, heq | ⟨hx, hy⟩ | ⟨hx, hy⟩⟩ := h
    · rw [heq]
    · rw [hx, hy]
      rfl
    · rw [hx, hy]
      rfl
  · rw [UnpackedFloat.isNaN_iff.mp hx, UnpackedFloat.isNaN_iff.mp hy]

end SymbolicCalculus.Binary64
