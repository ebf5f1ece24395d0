import SymbolicCalculus.Binary64.Basic
import SymbolicCalculus.Proofs.CommonFactorContainment
import SymbolicCalculus.Reduction.Factoring

/-!
# Common factors can be divided out

An expression is divided by the factors of a chain one after the other, the bases before the
numbers. Each division leaves what the later ones need: a quotient by a power of a base contains
every other base as often as before and every number that does not divide the base, and a quotient
by a number contains what it contained but that number.

A base is found inside another factor and inside the base of a power as well, while a power of a
composite base is divided only as a whole. So no factor of what is divided out may contain another
one, and the expression has to expose all of them. Then what two expressions share can be divided
out of both, and it is pulled out of them unless that would leave them as they are.
-/

namespace SymbolicCalculus.Expr

/-! ## Factors that are not inside a power -/

/-- Does a factor, a number or a base, divide an expression? -/
def Contains (factor e : Expr Rat) : Prop :=
  match factor with
  | const k => containsNumber k e = true
  | base => 0 < multiplicity base e

/-- The base of a power, wherever factors are looked for, is the factor itself or does not contain
it. From another power the factor may not be taken. -/
def Exposes (factor : Expr Rat) : Expr Rat → Prop
  | sum a b | difference a b | product a b => Exposes factor a ∧ Exposes factor b
  | quotient a _ | neg a => Exposes factor a
  | power a _ => (factor.IsBase ∧ a = factor ∨ ¬ Contains factor a) ∧ Exposes factor a
  | _ => True

instance (factor e : Expr Rat) : Decidable (Contains factor e) :=
  match factor with
  | const k => inferInstanceAs (Decidable (containsNumber k e = true))
  | param p => inferInstanceAs (Decidable (0 < multiplicity (param p) e))
  | binary op a b => inferInstanceAs (Decidable (0 < multiplicity (binary op a b) e))
  | neg a => inferInstanceAs (Decidable (0 < multiplicity (neg a) e))
  | call₀ f => inferInstanceAs (Decidable (0 < multiplicity (call₀ f) e))
  | call₁ f x => inferInstanceAs (Decidable (0 < multiplicity (call₁ f x) e))
  | call₂ f x y => inferInstanceAs (Decidable (0 < multiplicity (call₂ f x y) e))

instance decidableExposes (factor : Expr Rat) : DecidablePred (Exposes factor)
  | sum a b | difference a b | product a b =>
    have := decidableExposes factor a
    have := decidableExposes factor b
    inferInstanceAs (Decidable (Exposes factor a ∧ Exposes factor b))
  | quotient a _ | neg a => decidableExposes factor a
  | power a _ =>
    have := decidableExposes factor a
    inferInstanceAs (Decidable ((factor.IsBase ∧ a = factor ∨ ¬ Contains factor a) ∧
      Exposes factor a))
  | param _ | const _ | call₀ _ | call₁ _ _ | call₂ _ _ _ => isTrue trivial

section contains

variable {base e : Expr Rat}

theorem contains_of_isBase (hbase : base.IsBase) : Contains base e ↔ 0 < multiplicity base e := by
  cases base with
  | const k => contradiction
  | _ => exact Iff.rfl

/-- A power of something other than an exposed base does not contain the base. -/
theorem Exposes.multiplicity_eq_zero {a n : Expr Rat} (hbase : base.IsBase)
    (h : Exposes base (power a n)) (hne : a ≠ base) : multiplicity base a = 0 := by
  rcases h.1 with ⟨-, heq⟩ | hnot
  · contradiction
  · rw [contains_of_isBase hbase] at hnot
    omega

end contains

/-! ## Powers of a base -/

/-- `q` is what is left of `e` without so many of the base: a `PowerQuotient` in exact arithmetic,
where what is taken out is a natural number of times. -/
inductive IsQuotient (base : Expr Rat) : Nat → Expr Rat → Expr Rat → Prop where
  | zero (e : Expr Rat) : IsQuotient base 0 e e
  | self : IsQuotient base 1 base (nat 1)
  | product {i j : Nat} {a b a' b' : Expr Rat} (ha : IsQuotient base i a a')
      (hb : IsQuotient base j b b') : IsQuotient base (i + j) (product a b) (product a' b')
  | sum {n : Nat} {a b a' b' : Expr Rat} (hn : 0 < n) (ha : IsQuotient base n a a')
      (hb : IsQuotient base n b b') : IsQuotient base n (sum a b) (sum a' b')
  | difference {n : Nat} {a b a' b' : Expr Rat} (hn : 0 < n) (ha : IsQuotient base n a a')
      (hb : IsQuotient base n b b') : IsQuotient base n (difference a b) (difference a' b')
  | quotient {n : Nat} {a b a' : Expr Rat} (hn : 0 < n) (ha : IsQuotient base n a a') :
      IsQuotient base n (quotient a b) (quotient a' b)
  | neg {n : Nat} {a a' : Expr Rat} (ha : IsQuotient base n a a') :
      IsQuotient base n (neg a) (neg a')
  | lowered {k n : Nat} {q : Expr Rat} (hn : 0 < n) (hk : 0 < k)
      (h : lowerPower? base (k : Rat) n = some q) : IsQuotient base n (power base (const k)) q
  | power {j k : Nat} {a a' : Expr Rat} (hj : 0 < j) (hk : 0 < k) (hne : a ≠ base)
      (ha : IsQuotient base j a a') :
      IsQuotient base (j * k) (power a (const k)) (power a' (const k))

section quotients

variable {base e q : Expr Rat} {n : Nat}

theorem isQuotient_of_divideByPower? (h : divideByPower? base e (n : Rat) = some q) :
    IsQuotient base n e q := by
  have hpos (n : Nat) (hle : ¬ (n : Rat) ≤ (0 : Nat)) : 0 < n := by
    by_contra hzero
    obtain rfl : n = 0 := by omega
    exact hle le_rfl
  replace h := powerQuotient_of_divideByPower? h
  generalize hexponent : (n : Rat) = exponent at h
  induction h generalizing n with
  | @rest e _ hle =>
    subst hexponent
    obtain rfl : n = 0 := by
      have hzero : (n : Rat) ≤ (0 : Nat) := hle
      have hle : n ≤ 0 := by exact_mod_cast hzero
      omega
    exact .zero e
  | self hbase hone =>
    subst hexponent
    obtain rfl : n = 1 := by exact_mod_cast (eq_of_beq hone : (n : Rat) = 1)
    rw [eq_of_beq hbase]
    exact .self
  | @product a _ _ _ _ _ _ _ iha ihb =>
    subst hexponent
    obtain ⟨i, j, rfl, hi, hj⟩ := exists_split base a n
    exact .product (iha hi.symm) (ihb (hj.symm.trans (by rw [← hi])))
  | sum hle _ _ iha ihb =>
    subst hexponent
    exact .sum (hpos n hle) (iha rfl) (ihb rfl)
  | difference hle _ _ iha ihb =>
    subst hexponent
    exact .difference (hpos n hle) (iha rfl) (ihb rfl)
  | quotient hle _ iha =>
    subst hexponent
    exact .quotient (hpos n hle) (iha rfl)
  | lowered hle hk hbase hq =>
    subst hexponent
    obtain ⟨m, hm, rfl⟩ := Exact.isPositiveWhole_iff.mp hk
    obtain rfl := eq_of_beq hbase
    exact .lowered (hpos n hle) hm hq
  | power hle hk hne hwhole _ ih =>
    subst hexponent
    obtain ⟨m, hm, rfl⟩ := Exact.isPositiveWhole_iff.mp hk
    obtain ⟨j, hj, rfl⟩ := exists_div_eq hm hwhole
    exact .power (Nat.pos_of_mul_pos_right (hpos _ hle)) hm (ne_of_beq_false hne) (ih hj.symm)
  | neg _ _ ih =>
    subst hexponent
    exact .neg (ih rfl)

theorem exists_lowerPower? (inner : Expr Rat) {k n : Nat} (h : n ≤ k) :
    ∃ q, lowerPower? inner (k : Rat) n = some q := by
  have hnonneg : ¬ (k : Rat) - n < (0 : Nat) := by
    rw [← Nat.cast_sub h]
    exact not_lt.mpr (Nat.cast_nonneg _)
  rw [lowerPower?, if_neg hnonneg]
  split
  · exact ⟨_, rfl⟩
  · split
    · exact ⟨_, rfl⟩
    · exact ⟨_, rfl⟩

/-- A base can be taken out of an expression that exposes it as often as it is contained. -/
theorem exists_divideByPower? (hbase : base.IsBase) (hle : n ≤ multiplicity base e)
    (hexposes : Exposes base e) : ∃ q, divideByPower? base e (n : Rat) = some q := by
  generalize hexponent : (n : Rat) = exponent
  fun_induction divideByPower? base e exponent generalizing n with
  | case1 e => exact ⟨e, rfl⟩
  | case2 => exact ⟨_, rfl⟩
  | case3 e exponent hpos heq hne =>
    subst hexponent
    rw [eq_of_beq heq, multiplicity_self] at hle
    have hzero : n ≠ 0 := by
      rintro rfl
      exact hpos le_rfl
    obtain rfl : n = 1 := by omega
    exact absurd (beq_self_eq_true _) hne
  | case4 exponent _ a b fromLeft _ iha =>
    rename_i ihb
    subst hexponent
    rw [multiplicity_product hbase] at hle
    have hleft : fromLeft = (min (multiplicity base a) n : Nat) := by
      show Scalar.toMin.min (occurrences base a) (n : Rat) = _
      rw [occurrences_eq, min_natCast]
    have hright : (n : Rat) - fromLeft = (n - min (multiplicity base a) n : Nat) := by
      rw [hleft]
      exact (Nat.cast_sub (Nat.min_le_right _ _)).symm
    obtain ⟨a', ha'⟩ := iha (Nat.min_le_left _ _) hexposes.1 hleft.symm
    obtain ⟨b', hb'⟩ := ihb (n := n - min (multiplicity base a) n) (by omega) hexposes.2 hright.symm
    exact ⟨product a' b', by rw [ha']; exact (congrArg (Option.bind · _) hb').trans rfl⟩
  | case5 exponent _ a b hne iha ihb =>
    rw [multiplicity_sum (by simpa using hne)] at hle
    obtain ⟨a', ha'⟩ := iha (hle.trans (Nat.min_le_left _ _)) hexposes.1 hexponent
    obtain ⟨b', hb'⟩ := ihb (hle.trans (Nat.min_le_right _ _)) hexposes.2 hexponent
    exact ⟨sum a' b', by rw [ha', hb']; rfl⟩
  | case6 exponent _ a b hne iha ihb =>
    rw [multiplicity_difference (by simpa using hne)] at hle
    obtain ⟨a', ha'⟩ := iha (hle.trans (Nat.min_le_left _ _)) hexposes.1 hexponent
    obtain ⟨b', hb'⟩ := ihb (hle.trans (Nat.min_le_right _ _)) hexposes.2 hexponent
    exact ⟨difference a' b', by rw [ha', hb']; rfl⟩
  | case7 exponent _ a b hne iha =>
    rw [multiplicity_quotient (by simpa using hne)] at hle
    obtain ⟨a', ha'⟩ := iha hle hexposes hexponent
    exact ⟨quotient a' b, by rw [ha']; rfl⟩
  | case8 exponent hpos a k hk hne =>
    subst hexponent
    have hzero : multiplicity base (power a (const k)) = 0 := by
      rw [multiplicity, if_neg (by simpa using hne), if_neg (by simpa using hk)]
    rw [hzero] at hle
    obtain rfl : n = 0 := by omega
    exact absurd le_rfl hpos
  | case9 exponent hpos a k hk heq _ =>
    subst hexponent
    obtain ⟨m, hm, rfl⟩ := Exact.isPositiveWhole_iff.mp (by simpa using hk)
    rw [eq_of_beq heq, multiplicity_power hbase hm, multiplicity_self, Nat.mul_one] at hle
    exact exists_lowerPower? a hle
  | case10 exponent hpos a k hk hother | case11 exponent hpos a k hk hother =>
    subst hexponent
    obtain ⟨m, hm, rfl⟩ := Exact.isPositiveWhole_iff.mp (by simpa using hk)
    rw [multiplicity_power hbase hm, hexposes.multiplicity_eq_zero hbase (by simpa using hother),
      Nat.mul_zero] at hle
    obtain rfl : n = 0 := by omega
    exact absurd le_rfl hpos
  | case12 exponent _ a hne ih =>
    rw [multiplicity_neg hbase] at hle
    obtain ⟨a', ha'⟩ := ih hle hexposes hexponent
    exact ⟨neg a', by rw [ha']; rfl⟩
  | case13 e exponent hpos hne h₁ h₂ h₃ h₄ h₅ h₆ =>
    subst hexponent
    have hzero : multiplicity base e = 0 := by
      rw [multiplicity, if_neg (by simpa using hne)] <;> assumption
    rw [hzero] at hle
    obtain rfl : n = 0 := by omega
    exact absurd le_rfl hpos

namespace IsQuotient

/-- A base is taken out only as often as it is contained. -/
theorem le_multiplicity (hbase : base.IsBase) (h : IsQuotient base n e q) :
    n ≤ multiplicity base e := by
  induction h with
  | zero => exact Nat.zero_le _
  | self => rw [multiplicity_self]
  | product _ _ iha ihb =>
    rw [multiplicity_product hbase]
    omega
  | @sum n a b _ _ _ _ _ iha ihb => exact (le_min iha ihb).trans (min_multiplicity_le_sum base a b)
  | @difference n a b _ _ _ _ _ iha ihb =>
    exact (le_min iha ihb).trans (min_multiplicity_le_difference base a b)
  | @quotient n a b _ _ _ iha => exact iha.trans (multiplicity_le_quotient base a b)
  | neg _ iha =>
    rw [multiplicity_neg hbase]
    exact iha
  | @lowered k n q hn hk h =>
    rw [multiplicity_power hbase hk, multiplicity_self, Nat.mul_one]
    by_contra hlt
    have hcast : (k : Rat) < n := by exact_mod_cast Nat.lt_of_not_le hlt
    exact (lowerPower?_cases h).1 (sub_neg.mpr hcast)
  | @power j k a a' _ hk _ _ iha =>
    rw [multiplicity_power hbase hk, Nat.mul_comm]
    exact Nat.mul_le_mul_left k iha

/-- Another base is still contained as often, if neither of the two contains the other. -/
theorem multiplicity_le {other : Expr Rat} (hbase : base.IsBase) (hother : other.IsBase)
    (hzero : multiplicity other base = 0) (hzero' : multiplicity base other = 0)
    (h : IsQuotient base n e q) : multiplicity other e ≤ multiplicity other q := by
  have hself {n : Nat} {e q : Expr Rat} (hn : 0 < n) (h : IsQuotient base n e q) : e ≠ other := by
    rintro rfl
    have hle := h.le_multiplicity hbase
    omega
  induction h with
  | zero => exact le_rfl
  | self =>
    rw [hzero]
    exact Nat.zero_le _
  | product _ _ iha ihb =>
    rw [multiplicity_product hother, multiplicity_product hother]
    omega
  | @sum n a b a' b' hn ha hb iha ihb =>
    rw [multiplicity_sum (hself hn (.sum hn ha hb))]
    exact (min_le_min iha ihb).trans (min_multiplicity_le_sum other a' b')
  | @difference n a b a' b' hn ha hb iha ihb =>
    rw [multiplicity_difference (hself hn (.difference hn ha hb))]
    exact (min_le_min iha ihb).trans (min_multiplicity_le_difference other a' b')
  | @quotient n a b a' hn ha iha =>
    rw [multiplicity_quotient (hself hn (.quotient hn ha))]
    exact iha.trans (multiplicity_le_quotient other a' b)
  | neg _ iha =>
    rw [multiplicity_neg hother, multiplicity_neg hother]
    exact iha
  | lowered _ hk _ =>
    rw [multiplicity_power hother hk, hzero]
    exact Nat.zero_le _
  | power _ hk _ _ iha =>
    rw [multiplicity_power hother hk, multiplicity_power hother hk]
    exact Nat.mul_le_mul_left _ iha

/-- A number that does not divide the base still divides what is left. -/
theorem containsNumber {k : Rat} (hbase : containsNumber k base = false)
    (h : IsQuotient base n e q) (he : Expr.containsNumber k e = true) :
    Expr.containsNumber k q = true := by
  induction h with
  | zero => exact he
  | self =>
    rw [hbase] at he
    contradiction
  | product _ _ iha ihb =>
    rw [Expr.containsNumber, Bool.or_eq_true] at he ⊢
    exact he.imp iha ihb
  | sum _ _ _ iha ihb | difference _ _ _ iha ihb =>
    rw [Expr.containsNumber, Bool.and_eq_true] at he ⊢
    exact he.imp iha ihb
  | quotient _ _ iha => exact iha he
  | neg _ iha =>
    rw [Expr.containsNumber, Bool.or_eq_true] at he ⊢
    exact he.imp id iha
  | lowered _ hk _ =>
    rw [containsNumber_power hk, hbase] at he
    contradiction
  | power _ hk _ _ iha =>
    rw [containsNumber_power hk] at he ⊢
    exact iha he

/-- What is exposed stays so. -/
theorem exposes {factor : Expr Rat} (hbase : base.IsBase) (hexposes : Exposes base e)
    (h : IsQuotient base n e q) (he : Exposes factor e) : Exposes factor q := by
  induction h with
  | zero => exact he
  | self => trivial
  | product _ _ iha ihb => exact ⟨iha hexposes.1 he.1, ihb hexposes.2 he.2⟩
  | sum _ _ _ iha ihb | difference _ _ _ iha ihb =>
    exact ⟨iha hexposes.1 he.1, ihb hexposes.2 he.2⟩
  | quotient _ _ iha => exact iha hexposes he
  | neg _ iha => exact iha hexposes he
  | lowered _ _ h =>
    obtain ⟨-, ⟨-, rfl⟩ | ⟨-, rfl⟩ | ⟨-, rfl⟩⟩ := lowerPower?_cases h
    · trivial
    · exact he.2
    · exact he
  | power hj _ hne ha _ =>
    have hle := ha.le_multiplicity hbase
    rw [hexposes.multiplicity_eq_zero hbase hne] at hle
    omega

end IsQuotient

end quotients

/-! ## Numbers -/

section numbers

variable {k k' : Rat} {e q factor : Expr Rat}

/-- A number can be taken out of an expression that exposes and contains it. -/
theorem exists_divideByConstant? (hzero : k ≠ 0) (hk : containsNumber k e = true)
    (hexposes : Exposes (const k) e) : ∃ q, divideByConstant? k e = some q := by
  fun_induction divideByConstant? k e with
  | case1 e => exact ⟨e, rfl⟩
  | case2 => exact ⟨_, rfl⟩
  | case3 _ a r hdiv hwhole =>
    rw [containsNumber, Bool.and_eq_true] at hk
    obtain ⟨-, rfl⟩ := Exact.result?_divide.mp hdiv
    exact absurd hk.2 hwhole
  | case4 _ a hdiv =>
    have hsome : Operator.result? .divide a k = some (a / k) :=
      Exact.result?_divide.mpr ⟨hzero, rfl⟩
    rw [hsome] at hdiv
    contradiction
  | case5 => exact ⟨_, rfl⟩
  | case6 _ a b ha iha ihb =>
    rw [containsNumber, Bool.or_eq_true] at hk
    rcases hk with hk | hk
    · obtain ⟨a', ha'⟩ := iha hk hexposes.1
      rw [ha'] at ha
      contradiction
    · obtain ⟨b', hb'⟩ := ihb hk hexposes.2
      exact ⟨product a b', by rw [hb']; rfl⟩
  | case7 _ a b iha ihb | case8 _ a b iha ihb =>
    rw [containsNumber, Bool.and_eq_true] at hk
    obtain ⟨a', ha'⟩ := iha hk.1 hexposes.1
    obtain ⟨b', hb'⟩ := ihb hk.2 hexposes.2
    exact ⟨_, by rw [ha', hb']; rfl⟩
  | case9 _ a b iha =>
    obtain ⟨a', ha'⟩ := iha hk hexposes
    exact ⟨quotient a' b, by rw [ha']; rfl⟩
  | case10 => exact ⟨_, rfl⟩
  | case11 _ a hsign iha =>
    rw [containsNumber, Bool.or_eq_true] at hk
    rcases hk with hk | hk
    · exact absurd hk hsign
    · obtain ⟨a', ha'⟩ := iha hk hexposes
      exact ⟨neg a', by rw [ha']; rfl⟩
  | case12 e _ hconst hproduct hsum hdifference hquotient hneg =>
    -- Of what remains, only a power can contain a number, and such a power does not expose it.
    cases e with
    | const a => exact absurd rfl (hconst a)
    | neg a => exact absurd rfl (hneg a)
    | binary op a b =>
      cases op with
      | power =>
        cases b with
        | const n =>
          rw [containsNumber, Bool.and_eq_true] at hk
          rcases hexposes.1 with ⟨hbase, -⟩ | hnot
          · exact hbase.elim
          · exact absurd hk.2 hnot
        | _ => contradiction
      | plus => exact absurd rfl (hsum a b)
      | minus => exact absurd rfl (hdifference a b)
      | times => exact absurd rfl (hproduct a b)
      | divide => exact absurd rfl (hquotient a b)
    | _ => contradiction

/-- A number still divides a number that is divided by another one, if one of them is a sign. -/
theorem isWhole_div_div {a : Rat} (hsign : k = -1 ∨ k' = -1)
    (hwhole : Scalar.isWhole (a / k) = true) (hwhole' : Scalar.isWhole (a / k') = true) :
    Scalar.isWhole (a / k / k') = true := by
  rcases hsign with rfl | rfl
  · obtain ⟨m, hm⟩ := Exact.isWhole_iff.mp hwhole'
    refine Exact.isWhole_iff.mpr ⟨-m, ?_⟩
    rw [div_right_comm, hm, div_neg, div_one, Int.cast_neg]
  · obtain ⟨m, hm⟩ := Exact.isWhole_iff.mp hwhole
    refine Exact.isWhole_iff.mpr ⟨-m, ?_⟩
    rw [hm, div_neg, div_one, Int.cast_neg]

/-- `q` is what is left of `e` without a number: a `ConstantQuotient` in exact arithmetic, where a
test on the number says what the number is. -/
inductive IsNumberQuotient (k : Rat) : Expr Rat → Expr Rat → Prop where
  | one (e : Expr Rat) : IsNumberQuotient k e e
  | const {a : Rat} (hwhole : Scalar.isWhole (a / k) = true) :
      IsNumberQuotient k (const a) (const (a / k))
  | left {a b a' : Expr Rat} (ha : IsNumberQuotient k a a') :
      IsNumberQuotient k (product a b) (product a' b)
  | right {a b b' : Expr Rat} (hb : IsNumberQuotient k b b') :
      IsNumberQuotient k (product a b) (product a b')
  | sum {a b a' b' : Expr Rat} (ha : IsNumberQuotient k a a') (hb : IsNumberQuotient k b b') :
      IsNumberQuotient k (sum a b) (sum a' b')
  | difference {a b a' b' : Expr Rat} (ha : IsNumberQuotient k a a')
      (hb : IsNumberQuotient k b b') : IsNumberQuotient k (difference a b) (difference a' b')
  | quotient {a b a' : Expr Rat} (ha : IsNumberQuotient k a a') :
      IsNumberQuotient k (quotient a b) (quotient a' b)
  | sign {a : Expr Rat} (hk : k = -1) : IsNumberQuotient k (neg a) a
  | neg {a a' : Expr Rat} (ha : IsNumberQuotient k a a') : IsNumberQuotient k (neg a) (neg a')

theorem isNumberQuotient_of_divideByConstant? (h : divideByConstant? k e = some q) :
    IsNumberQuotient k e q := by
  replace h := constantQuotient_of_divideByConstant? h
  induction h with
  | one => exact .one _
  | const hdiv hwhole =>
    obtain ⟨-, rfl⟩ := Exact.result?_divide.mp hdiv
    exact .const hwhole
  | left _ iha => exact .left iha
  | right _ ihb => exact .right ihb
  | sum _ _ iha ihb => exact .sum iha ihb
  | difference _ _ iha ihb => exact .difference iha ihb
  | quotient _ iha => exact .quotient iha
  | sign hminus => exact .sign (eq_of_beq hminus)
  | neg _ iha => exact .neg iha

namespace IsNumberQuotient

/-- After a sign, another number can still be taken out, and after another number a sign. -/
theorem containsNumber (h : IsNumberQuotient k e q) (hne : k ≠ k') (hsign : k = -1 ∨ k' = -1)
    (hk : e.containsNumber k' = true) : q.containsNumber k' = true := by
  induction h with
  | one => exact hk
  | const hwhole =>
    rw [Expr.containsNumber, Bool.and_eq_true] at hk ⊢
    exact ⟨hk.1, isWhole_div_div hsign hwhole hk.2⟩
  | left _ iha =>
    rw [Expr.containsNumber, Bool.or_eq_true] at hk ⊢
    exact hk.imp iha id
  | right _ ihb =>
    rw [Expr.containsNumber, Bool.or_eq_true] at hk ⊢
    exact hk.imp id ihb
  | sum _ _ iha ihb | difference _ _ iha ihb =>
    rw [Expr.containsNumber, Bool.and_eq_true] at hk ⊢
    exact hk.imp iha ihb
  | quotient _ iha => exact iha hk
  | sign hminus =>
    rw [Expr.containsNumber, Bool.or_eq_true] at hk
    exact hk.resolve_left fun hk => hne (hminus.trans (eq_of_beq hk).symm)
  | neg _ iha =>
    rw [Expr.containsNumber, Bool.or_eq_true] at hk ⊢
    exact hk.imp id iha

theorem exposes (h : IsNumberQuotient k e q) (he : Exposes factor e) : Exposes factor q := by
  induction h with
  | one => exact he
  | const => trivial
  | left _ iha => exact ⟨iha he.1, he.2⟩
  | right _ ihb => exact ⟨he.1, ihb he.2⟩
  | sum _ _ iha ihb | difference _ _ iha ihb => exact ⟨iha he.1, ihb he.2⟩
  | quotient _ iha => exact iha he
  | sign => exact he
  | neg _ iha => exact iha he

end IsNumberQuotient

end numbers

/-! ## All factors -/

section factors

variable {e g : Expr Rat} {factors : List (Factor Rat)}

/-- The bases among the factors can be taken out one after the other, and the numbers that none of
them contains can still be taken out then. -/
theorem exists_foldlM_bases (hwhole : HasWholeExponents factors)
    (hbases : ∀ factor ∈ factors, factor.base.IsBase) (hnodup : (factors.map Factor.base).Nodup)
    (hcoprime : AreCoprime (factors.map Factor.base))
    (hle : ∀ factor ∈ factors, ∀ n : Nat, factor.exponent = n → n ≤ multiplicity factor.base e)
    (hexposes : ∀ factor ∈ factors, Exposes factor.base e) :
    ∃ q, factors.foldlM divideByFactor? e = some q ∧
      ∀ k, (∀ factor ∈ factors, containsNumber k factor.base = false) →
        containsNumber k e = true → Exposes (const k) e →
          containsNumber k q = true ∧ Exposes (const k) q := by
  induction factors generalizing e with
  | nil => exact ⟨e, rfl, fun k _ hk he => ⟨hk, he⟩⟩
  | cons factor rest ih =>
    obtain ⟨⟨n, hn, hexp⟩, hwhole⟩ := List.forall_mem_cons.mp hwhole
    obtain ⟨hbase, hbases⟩ := List.forall_mem_cons.mp hbases
    obtain ⟨hleHead, hleRest⟩ := List.forall_mem_cons.mp hle
    obtain ⟨hexposesHead, hexposesRest⟩ := List.forall_mem_cons.mp hexposes
    rw [List.map_cons, List.nodup_cons] at hnodup
    obtain ⟨q, hq⟩ := exists_divideByPower? hbase (hleHead n hexp) hexposesHead
    have hquotient := isQuotient_of_divideByPower? hq
    have hdivide : divideByFactor? e factor = some q := by
      unfold divideByFactor?
      split
      · next k hk => exact absurd hk (hbase.ne_const k)
      · rw [hexp, hq]
    have hcoprimeRest : AreCoprime (rest.map Factor.base) := fun f hf f' hf' =>
      hcoprime f (List.mem_cons_of_mem _ hf) f' (List.mem_cons_of_mem _ hf')
    have hleNext : ∀ other ∈ rest, ∀ m : Nat, other.exponent = m →
        m ≤ multiplicity other.base q := by
      intro other hother m hm
      have hmem : other.base ∈ (rest.map Factor.base) := List.mem_map_of_mem hother
      have hne : factor.base ≠ other.base := fun heq => hnodup.1 (heq ▸ hmem)
      refine (hleRest other hother m hm).trans
        (hquotient.multiplicity_le hbase (hbases other hother) ?_ ?_)
      · exact hcoprime _ (List.mem_cons_of_mem _ hmem) _ List.mem_cons_self (Ne.symm hne)
      · exact hcoprime _ List.mem_cons_self _ (List.mem_cons_of_mem _ hmem) hne
    obtain ⟨q', hq', hnumbers⟩ := ih hwhole hbases hnodup.2 hcoprimeRest hleNext
      fun other hother => hquotient.exposes hbase hexposesHead (hexposesRest other hother)
    refine ⟨q', ?_, fun k hfactors hk he => ?_⟩
    · rw [List.foldlM_cons, hdivide]
      exact hq'
    · obtain ⟨hhead, hrest⟩ := List.forall_mem_cons.mp hfactors
      exact hnumbers k hrest (hquotient.containsNumber hhead hk)
        (hquotient.exposes hbase hexposesHead he)

theorem eq_neg_one_of_magnitude {k : Rat} (h : Scalar.magnitude k = 1) (hne : k ≠ 1) : k = -1 := by
  change (if k < 0 then -k else k) = 1 at h
  split at h
  · rw [← h, neg_neg]
  · exact absurd h hne

/-- Of two numbers in a plain chain, one is a sign. -/
theorem IsPlainChain.eq_neg_one_or {k k' : Rat} {factor other : Factor Rat}
    (hplain : IsPlainChain factors) (hfactor : factor ∈ factors) (hother : other ∈ factors)
    (hk : factor.base = const k) (hk' : other.base = const k') (hbase : factor.base ≠ other.base)
    (hone : k ≠ 1) (hone' : k' ≠ 1) : k = -1 ∨ k' = -1 := by
  by_cases hmagnitude : Scalar.magnitude k = 1
  · exact .inl (eq_neg_one_of_magnitude hmagnitude hone)
  · refine .inr (eq_neg_one_of_magnitude ?_ hone')
    by_contra hmagnitude'
    exact hbase (hplain.one factor hfactor other hother ⟨k, hk, hmagnitude⟩
      ⟨k', hk', hmagnitude'⟩)

/-- What a factor that is a number takes out: the number itself, or nothing. -/
theorem power_of_number {k : Rat} {factor : Factor Rat} {n : Nat} (hexp : factor.exponent = n)
    (hk : factor.base = const k) (honce : IsCoefficient factor → factor.exponent = 1) :
    Arithmetic.power k factor.exponent = 1 ∨ Arithmetic.power k factor.exponent = k := by
  by_cases hmagnitude : Scalar.magnitude k = 1
  · rw [hexp, Exact.power_natCast]
    by_cases hone : k = 1
    · rw [hone, one_pow]
      exact .inl rfl
    · rw [eq_neg_one_of_magnitude hmagnitude hone]
      exact neg_one_pow_eq_or Rat n
  · have hone : factor.exponent = (1 : Nat) := (honce ⟨k, hk, hmagnitude⟩).trans rfl
    rw [hone, Exact.power_natCast, pow_one]
    exact .inr rfl

/-- The numbers of a plain chain can be taken out one after the other. -/
theorem exists_foldlM_numbers (hwhole : HasWholeExponents factors)
    (hnodup : (factors.map Factor.base).Nodup) (hplain : IsPlainChain factors)
    (hnumbers : ∀ factor ∈ factors, ∃ k, factor.base = const k ∧
      (k ≠ 1 → containsNumber k e = true ∧ Exposes (const k) e)) :
    ∃ q, factors.foldlM divideByFactor? e = some q := by
  induction factors generalizing e with
  | nil => exact ⟨e, rfl⟩
  | cons factor rest ih =>
    obtain ⟨⟨n, hn, hexp⟩, hwhole⟩ := List.forall_mem_cons.mp hwhole
    obtain ⟨⟨k, hk, hcontains⟩, hrest⟩ := List.forall_mem_cons.mp hnumbers
    rw [List.map_cons, List.nodup_cons] at hnodup
    have hplainRest : IsPlainChain rest := hplain.mono fun _ hmem => List.mem_cons_of_mem _ hmem
    have hdivide (e : Expr Rat) :
        divideByFactor? e factor = divideByConstant? (Arithmetic.power k factor.exponent) e := by
      unfold divideByFactor?
      rw [hk]
    rw [List.foldlM_cons, hdivide]
    by_cases hone : Arithmetic.power k factor.exponent = 1
    · obtain ⟨q, hq⟩ := ih hwhole hnodup.2 hplainRest hrest
      refine ⟨q, ?_⟩
      have hsame : divideByConstant? (Arithmetic.power k factor.exponent) e = some e := by
        rw [hone, divideByConstant?.eq_def]
        rfl
      rw [hsame]
      exact hq
    · have hpower :=
        (power_of_number hexp hk (hplain.once factor List.mem_cons_self)).resolve_left hone
      rw [hpower] at hone ⊢
      obtain ⟨hcontained, hexposes⟩ := hcontains hone
      have hzero : k ≠ 0 := by
        rintro rfl
        exact hplain.nonzero factor List.mem_cons_self hk
      obtain ⟨q, hq⟩ := exists_divideByConstant? hzero hcontained hexposes
      have hquotient := isNumberQuotient_of_divideByConstant? hq
      obtain ⟨q', hq'⟩ := ih (e := q) hwhole hnodup.2 hplainRest fun other hother => by
        obtain ⟨k', hk', hcontains'⟩ := hrest other hother
        refine ⟨k', hk', fun hone' => ?_⟩
        obtain ⟨hcontained', hexposes'⟩ := hcontains' hone'
        have hbase : factor.base ≠ other.base := fun heq =>
          hnodup.1 (heq ▸ List.mem_map_of_mem hother)
        have hne : k ≠ k' := by
          rintro rfl
          exact hbase (hk.trans hk'.symm)
        have hsign : k = -1 ∨ k' = -1 := hplain.eq_neg_one_or List.mem_cons_self
          (List.mem_cons_of_mem _ hother) hk hk' hbase hone hone'
        exact ⟨hquotient.containsNumber hne hsign hcontained', hquotient.exposes hexposes'⟩
      exact ⟨q', by rw [hq]; exact hq'⟩

/-- A factor of a common factor is not inside the base of another power in the expression. -/
def IsExposedIn (g e : Expr Rat) : Prop :=
  ∀ factor ∈ g.chain, Exposes factor.base e

/-- The numbers in the chain do not divide its other factors. -/
def IsIndependent (g : Expr Rat) : Prop :=
  ∀ factor ∈ g.chain, ∀ k ∈ factor.base.constant?, ∀ other ∈ g.chain, other.base.IsBase →
    containsNumber k other.base = false

instance (g e : Expr Rat) : Decidable (g.IsExposedIn e) :=
  inferInstanceAs (Decidable (∀ factor ∈ g.chain, Exposes factor.base e))

instance (g : Expr Rat) : Decidable g.IsIndependent :=
  inferInstanceAs (Decidable (∀ factor ∈ g.chain, ∀ k ∈ factor.base.constant?,
    ∀ other ∈ g.chain, other.base.IsBase → containsNumber k other.base = false))

/-- The factors that are numbers. -/
def numberFactors (factors : List (Factor Rat)) : List (Factor Rat) :=
  factors.filter fun factor => factor.base.constant?.isSome

theorem mem_numberFactors {factor : Factor Rat} :
    factor ∈ numberFactors factors ↔ factor ∈ factors ∧ ∃ k, factor.base = const k := by
  rw [numberFactors, List.mem_filter]
  refine and_congr_right fun _ => ?_
  obtain ⟨base, exponent⟩ := factor
  cases base with
  | const k => simp [constant?]
  | _ => simp [constant?]

theorem divideOut?_eq (e g : Expr Rat) :
    divideOut? e g =
      ((properFactors g.chain).foldlM divideByFactor? e).bind
        ((numberFactors g.chain).foldlM divideByFactor?) := by
  have hfilter : (g.chain.filter (not ∘ fun factor => factor.base.constant?.isSome)) =
      properFactors g.chain :=
    congrArg (g.chain.filter ·) (funext fun factor => Option.not_isSome _)
  unfold divideOut?
  rw [List.partition_eq_filter_filter]
  dsimp only
  rw [List.foldlM_append, hfilter]
  rfl

/-- What a plain divisor is made of can be taken out of an expression that contains and exposes it.
-/
theorem exists_divideOut? (hplain : g.IsPlain) (hindependent : g.IsIndependent)
    (hcontained : IsContained g e) (hexposed : g.IsExposedIn e) : ∃ q, divideOut? e g = some q := by
  have hchain := hplain.chain
  have hnodup := nodup_chain g
  have hwhole := hasWholeExponents_chain g
  have hmem {factor : Factor Rat} (h : factor ∈ properFactors g.chain) : factor ∈ g.chain :=
    (mem_properFactors.mp h).1
  have hle : ∀ factor ∈ properFactors g.chain, ∀ n : Nat, factor.exponent = n →
      n ≤ multiplicity factor.base e := by
    intro factor h n hexp
    have hbase := isBase_of_mem_properFactors h
    exact (exponent_le_multiplicity (hmem h) hbase hexp).trans (hcontained.multiplicity_le _ hbase)
  obtain ⟨q, hq, hkept⟩ := exists_foldlM_bases (e := e) (fun factor h => hwhole factor (hmem h))
    (fun _ => isBase_of_mem_properFactors) (nodup_properFactors g) hchain.areCoprime hle
    (fun factor h => hexposed factor (hmem h))
  have hnumbers : ∀ factor ∈ numberFactors g.chain, ∃ k, factor.base = const k ∧
      (k ≠ 1 → containsNumber k q = true ∧ Exposes (const k) q) := by
    intro factor h
    obtain ⟨hfactor, k, hk⟩ := mem_numberFactors.mp h
    refine ⟨k, hk, fun hne => hkept k (fun other hother => ?_) (hcontained.number k ?_) ?_⟩
    · exact hindependent factor hfactor k (by rw [hk]; rfl) other (hmem hother)
        (isBase_of_mem_properFactors hother)
    · have hzero : k ≠ 0 := fun hzero => hchain.nonzero factor hfactor (by rw [hk, hzero])
      refine containsNumber_of_mem_chain hfactor ⟨?_, fun hsign => ?_⟩
      · rw [hk]
        exact containsNumber_const_self hne hzero
      · rw [hk] at hsign
        exact const.inj hsign
    · have hexposes := hexposed factor hfactor
      rwa [hk] at hexposes
  obtain ⟨q', hq'⟩ := exists_foldlM_numbers
    (fun factor h => hwhole factor (mem_numberFactors.mp h).1)
    (hnodup.sublist (List.filter_sublist.map _))
    (hchain.mono fun factor h => (mem_numberFactors.mp h).1) hnumbers
  refine ⟨q', ?_⟩
  rw [divideOut?_eq, hq]
  exact hq'

end factors

/-! ## Common factors -/

/-- **What is found to be shared can be divided out**, and pulled out unless it is trivial. The
chains of the two expressions have to be plain, and no factor of what is found may be inside another
factor or inside the base of another power. -/
theorem divideOut?_of_commonFactor? {a b g : Expr Rat} (ha : a.IsPlain) (hb : b.IsPlain)
    (h : commonFactor? a b = some g) (hindependent : g.IsIndependent) (hga : g.IsExposedIn a)
    (hgb : g.IsExposedIn b) :
    ∃ a' b', divideOut? a g = some a' ∧ divideOut? b g = some b' ∧
      ∀ op, isIdleFactor op a b g = false → extract? op a b = some (g, a', b') := by
  obtain ⟨hplain, hcontained, hcontained'⟩ := isContained_of_commonFactor? ha hb h
  obtain ⟨a', ha'⟩ := exists_divideOut? hplain hindependent hcontained hga
  obtain ⟨b', hb'⟩ := exists_divideOut? hplain hindependent hcontained' hgb
  refine ⟨a', b', ha', hb', fun op hidle => ?_⟩
  rw [extract?, h]
  simp [hidle, ha', hb']

/-- From `6*(x + 1)^4` and `4*(x + 1)^2 - (x + 1)*(2*y)`, the factor `2*(x + 1)` is taken. -/
theorem divideOut?_of_commonFactor?_of_difference :
    let s : Expr Rat := .sum (.param "x") (nat 1)
    let y : Expr Rat := .param "y"
    let a : Expr Rat := .product (nat 6) (.power s (nat 4))
    let b : Expr Rat :=
      .difference (.product (nat 4) (.power s (nat 2))) (.product s (.product (nat 2) y))
    let g : Expr Rat := .product (nat 2) s
    a.IsPlain ∧ b.IsPlain ∧ commonFactor? a b = some g ∧ g.IsIndependent ∧ g.IsExposedIn a ∧
      g.IsExposedIn b ∧ ∃ a' b', extract? .minus a b = some (g, a', b') := by
  intro s y a b g
  have ha : a.IsPlain := by decide +kernel
  have hb : b.IsPlain := by decide +kernel
  have h : commonFactor? a b = some g := by decide +kernel
  have hg : g.IsIndependent := by decide +kernel
  have hga : g.IsExposedIn a := by decide +kernel
  have hgb : g.IsExposedIn b := by decide +kernel
  obtain ⟨a', b', -, -, hextract⟩ := divideOut?_of_commonFactor? ha hb h hg hga hgb
  exact ⟨ha, hb, h, hg, hga, hgb, a', b', hextract .minus (by decide +kernel)⟩

/-- What is found cannot always be divided out. A factor may be found inside the base of a power, in
another factor, next to a zero, or in two numbers together. -/
theorem divideOut?_eq_none_of_commonFactor? :
    let x : Expr Binary64 := .param "x"
    let y : Expr Binary64 := .param "y"
    let xy : Expr Binary64 := .power (.product x y) (nat 2)
    let xOverY : Expr Binary64 := .quotient x y
    let xPlusZero : Expr Binary64 := .sum x (nat 0)
    let six : Expr Rat := .product (nat 2) (nat 3)
    (commonFactor? xy x = some x ∧ divideOut? xy x = none) ∧
      (commonFactor? xOverY (.product xOverY x) = some (.product xOverY x) ∧
        divideOut? xOverY (.product xOverY x) = none) ∧
      (commonFactor? xPlusZero x = some x ∧ divideOut? xPlusZero x = none) ∧
      commonFactor? six (.product (nat 6) (.param "x")) = some (nat 6) ∧
      divideOut? six (nat 6) = none := by
  decide +kernel

end SymbolicCalculus.Expr
