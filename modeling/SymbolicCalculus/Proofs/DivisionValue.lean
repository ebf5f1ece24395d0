import SymbolicCalculus.Proofs.ChainValue
import SymbolicCalculus.Proofs.FactoringSteps

/-!
# Division is exact

Wherever an expression and a divisor have values, a quotient that is returned has one too, and the
value of the expression is the product of the two. Nothing is divided for that, so it also holds
where the divisor is zero. There is one lemma for each kind of factor (`divideByPower?_value`,
`divideByConstant?_value`) and `divideOut?_value` for all factors of the divisor in turn.
-/

namespace SymbolicCalculus.Expr

variable {F : Type} [Field F] {I : Interpretation Rat F}

/-- The quotient `q` times `d` is worth `v`. -/
def HasQuotient (I : Interpretation Rat F) (q : Expr Rat) (v d : F) : Prop :=
  ∃ u, q.value? I = some u ∧ v = u * d

variable [I.IsFaithful]

/-! ## Quotients of the parts -/

section parts

variable {a' b b' : Expr Rat} {y z d d' : F}

theorem HasQuotient.product (ha : HasQuotient I a' y d)
    (hb : HasQuotient I b' z d') :
    HasQuotient I (.product a' b') (y * z) (d * d') := by
  obtain ⟨u, hu, rfl⟩ := ha
  obtain ⟨w, hw, rfl⟩ := hb
  exact ⟨u * w, value?_product_iff.mpr ⟨u, w, hu, hw, rfl⟩, by ring⟩

theorem HasQuotient.sum (ha : HasQuotient I a' y d)
    (hb : HasQuotient I b' z d) :
    HasQuotient I (.sum a' b') (y + z) d := by
  obtain ⟨u, hu, rfl⟩ := ha
  obtain ⟨w, hw, rfl⟩ := hb
  exact ⟨u + w, value?_sum_iff.mpr ⟨u, w, hu, hw, rfl⟩, by ring⟩

theorem HasQuotient.difference (ha : HasQuotient I a' y d)
    (hb : HasQuotient I b' z d) :
    HasQuotient I (.difference a' b') (y - z) d := by
  obtain ⟨u, hu, rfl⟩ := ha
  obtain ⟨w, hw, rfl⟩ := hb
  exact ⟨u - w, value?_difference_iff.mpr ⟨u, w, hu, hw, rfl⟩, by ring⟩

theorem HasQuotient.quotient (ha : HasQuotient I a' y d)
    (hb : b.value? I = some z) (hne : z ≠ 0) :
    HasQuotient I (.quotient a' b) (y / z) d := by
  obtain ⟨u, hu, rfl⟩ := ha
  exact ⟨u / z, value?_quotient_iff.mpr ⟨u, z, hu, hb, hne, rfl⟩, by ring⟩

theorem HasQuotient.neg (ha : HasQuotient I a' y d) :
    HasQuotient I (.neg a') (-y) d := by
  obtain ⟨u, hu, rfl⟩ := ha
  exact ⟨-u, value?_neg_iff.mpr ⟨u, hu, rfl⟩, by ring⟩

end parts

/-! ## Powers of a base -/

theorem lowerPower?_value {inner q : Expr Rat} {x : F} {k n : Nat}
    (hx : inner.value? I = some x)
    (h : lowerPower? inner (k : Rat) (n : Rat) = some q) :
    HasQuotient I q (x ^ k) (x ^ n) := by
  obtain ⟨hnonneg, hcases⟩ := lowerPower?_cases h
  have hle : n ≤ k := by
    have : (n : Rat) ≤ k := by simpa using hnonneg
    exact_mod_cast this
  have hremaining : (k : Rat) - n = ((k - n : Nat) : Rat) := (Nat.cast_sub hle).symm
  have hpow : x ^ k = x ^ (k - n) * x ^ n := by rw [← pow_add, Nat.sub_add_cancel hle]
  rw [hremaining] at hcases
  generalize k - n = m at hcases hpow
  rcases hcases with ⟨hzero, rfl⟩ | ⟨hone, rfl⟩ | ⟨hne, rfl⟩
  · obtain rfl : m = 0 := by exact_mod_cast (eq_of_beq hzero : (m : Rat) = 0)
    exact ⟨1, value?_one, by rwa [pow_zero] at hpow⟩
  · obtain rfl : m = 1 := by exact_mod_cast (eq_of_beq hone : (m : Rat) = 1)
    exact ⟨x, hx, by rwa [pow_one] at hpow⟩
  · have hm : m ≠ 0 := by
      rintro rfl
      exact ne_of_beq_false hne rfl
    exact ⟨x ^ m, value?_power_nat hx (Nat.pos_of_ne_zero hm), hpow⟩

/-- How often a base is taken from the first factor of a product, and how often from the second. -/
theorem exists_split (base a : Expr Rat) (n : Nat) :
    ∃ i j : Nat, i + j = n ∧ Scalar.toMin.min (occurrences base a) (n : Rat) = i ∧
      (n : Rat) - (i : Rat) = j := by
  obtain ⟨m, hm⟩ := exists_occurrences_eq base a
  refine ⟨min m n, n - min m n, by omega, ?_, (Nat.cast_sub (Nat.min_le_right m n)).symm⟩
  rw [hm, Exact.min_eq]
  split
  · next hle => rw [Nat.min_eq_left (by exact_mod_cast hle)]
  · next hle => rw [Nat.min_eq_right (by
      have : ¬ m ≤ n := by exact_mod_cast hle
      omega)]

/-- If the quotient of two exponents is an integer then it is a natural number. -/
theorem exists_div_eq {k n : Nat} (hk : 0 < k)
    (h : Scalar.isWhole ((n : Rat) / (k : Rat)) = true) :
    ∃ m : Nat, (n : Rat) / (k : Rat) = m ∧ n = m * k := by
  obtain ⟨i, hi⟩ := Exact.isWhole_iff.mp h
  have hk' : (k : Rat) ≠ 0 := by exact_mod_cast hk.ne'
  have hnonneg : (0 : Rat) ≤ i := by
    rw [← hi]
    exact div_nonneg (Nat.cast_nonneg n) (Nat.cast_nonneg k)
  obtain ⟨m, rfl⟩ := Int.eq_ofNat_of_zero_le (by exact_mod_cast hnonneg : (0 : Int) ≤ i)
  refine ⟨m, hi, ?_⟩
  rw [div_eq_iff hk'] at hi
  exact_mod_cast hi

/-- A quotient by a power of a base times that power is the expression. -/
theorem divideByPower?_value {base e q : Expr Rat} {x v : F} {n : Nat}
    (hx : base.value? I = some x)
    (hv : e.value? I = some v)
    (h : divideByPower? base e (n : Rat) = some q) :
    HasQuotient I q v (x ^ n) := by
  replace h := powerQuotient_of_divideByPower? h
  generalize hn : (n : Rat) = exponent at h
  induction h generalizing v n with
  | rest hle =>
    subst hn
    obtain rfl : n = 0 := by
      have : (n : Rat) ≤ 0 := by simpa using hle
      exact_mod_cast le_antisymm this (Nat.cast_nonneg n)
    exact ⟨v, hv, by rw [pow_zero, mul_one]⟩
  | self hbase hone =>
    subst hn
    obtain rfl : n = 1 := by exact_mod_cast (eq_of_beq hone : (n : Rat) = 1)
    rw [eq_of_beq hbase, hx] at hv
    obtain rfl : x = v := Option.some.inj hv
    exact ⟨1, value?_one, by rw [pow_one, one_mul]⟩
  | @product a b _ _ _ _ _ _ iha ihb =>
    subst hn
    obtain ⟨y, z, hy, hz, rfl⟩ := value?_product_iff.mp hv
    obtain ⟨i, j, hij, hi, hj⟩ := exists_split base a n
    rw [← hij, pow_add]
    exact (iha hy hi.symm).product (ihb hz (hj.symm.trans (by rw [← hi])))
  | sum _ _ _ iha ihb =>
    obtain ⟨y, z, hy, hz, rfl⟩ := value?_sum_iff.mp hv
    exact (iha hy hn).sum (ihb hz hn)
  | difference _ _ _ iha ihb =>
    obtain ⟨y, z, hy, hz, rfl⟩ := value?_difference_iff.mp hv
    exact (iha hy hn).difference (ihb hz hn)
  | quotient _ _ iha =>
    obtain ⟨y, z, hy, hz, hne, rfl⟩ := value?_quotient_iff.mp hv
    exact (iha hy hn).quotient hz hne
  | lowered _ hk hbase hq =>
    subst hn
    obtain ⟨m, hm, rfl⟩ := Exact.isPositiveWhole_iff.mp hk
    obtain ⟨y, hy, rfl⟩ := eq_pow_of_power_nat hm hv
    rw [eq_of_beq hbase, hx] at hy
    obtain rfl : x = y := Option.some.inj hy
    exact lowerPower?_value (by rw [eq_of_beq hbase, hx]) hq
  | power _ hk _ hwhole _ ih =>
    subst hn
    obtain ⟨m, hm, rfl⟩ := Exact.isPositiveWhole_iff.mp hk
    obtain ⟨y, hy, rfl⟩ := eq_pow_of_power_nat hm hv
    obtain ⟨j, hj, rfl⟩ := exists_div_eq hm hwhole
    obtain ⟨u, hu, rfl⟩ := ih hy hj.symm
    refine ⟨u ^ m, value?_power_nat hu hm, ?_⟩
    rw [mul_pow, pow_mul]
  | neg _ _ ih =>
    obtain ⟨y, hy, rfl⟩ := value?_neg_iff.mp hv
    exact (ih hy hn).neg

/-! ## Constants -/

variable [CharZero F]

/-- A quotient by a constant times that constant is the expression. -/
theorem divideByConstant?_value {e q : Expr Rat} {k : Rat} {v : F}
    (hv : e.value? I = some v) (h : divideByConstant? k e = some q) :
    HasQuotient I q v k := by
  replace h := constantQuotient_of_divideByConstant? h
  induction h generalizing v with
  | one hone =>
    obtain rfl : k = 1 := eq_of_beq hone
    exact ⟨v, hv, by rw [Rat.cast_one, mul_one]⟩
  | @const a r hdiv _ =>
    obtain rfl : (a : F) = v := by simpa using hv
    obtain ⟨hne, rfl⟩ := Exact.result?_divide.mp hdiv
    have hcast : (a : F) = ((a / k : Rat) : F) * k := by
      rw [← Rat.cast_mul, div_mul_cancel₀ a hne]
    exact ⟨_, value?_const (a / k), hcast⟩
  | left _ iha =>
    obtain ⟨y, z, hy, hz, rfl⟩ := value?_product_iff.mp hv
    obtain ⟨u, hu, rfl⟩ := iha hy
    exact ⟨u * z, value?_product_iff.mpr ⟨u, z, hu, hz, rfl⟩, by ring⟩
  | right _ ihb =>
    obtain ⟨y, z, hy, hz, rfl⟩ := value?_product_iff.mp hv
    obtain ⟨w, hw, rfl⟩ := ihb hz
    exact ⟨y * w, value?_product_iff.mpr ⟨y, w, hy, hw, rfl⟩, by ring⟩
  | sum _ _ iha ihb =>
    obtain ⟨y, z, hy, hz, rfl⟩ := value?_sum_iff.mp hv
    exact (iha hy).sum (ihb hz)
  | difference _ _ iha ihb =>
    obtain ⟨y, z, hy, hz, rfl⟩ := value?_difference_iff.mp hv
    exact (iha hy).difference (ihb hz)
  | quotient _ iha =>
    obtain ⟨y, z, hy, hz, hne, rfl⟩ := value?_quotient_iff.mp hv
    exact (iha hy).quotient hz hne
  | sign hminus =>
    obtain rfl : k = -1 := eq_of_beq hminus
    obtain ⟨y, hy, rfl⟩ := value?_neg_iff.mp hv
    exact ⟨y, hy, by simp⟩
  | neg _ ih =>
    obtain ⟨y, hy, rfl⟩ := value?_neg_iff.mp hv
    exact (ih hy).neg

/-! ## All factors of a divisor -/

/-- A quotient by a factor times the value of the factor is the expression. -/
theorem divideByFactor?_value {e q : Expr Rat} {factor : Factor Rat} {x v : F} {n : Nat}
    (hv : e.value? I = some v)
    (hbase : factor.base.value? I = some x) (hexp : factor.exponent = n)
    (h : divideByFactor? e factor = some q) :
    HasQuotient I q v (x ^ n) := by
  unfold divideByFactor? at h
  rw [hexp] at h
  split at h
  · next k hk =>
    rw [hk] at hbase
    obtain rfl : (k : F) = x := by simpa using hbase
    rw [Exact.power_natCast] at h
    rw [← Rat.cast_pow]
    exact divideByConstant?_value hv h
  · exact divideByPower?_value hbase hv h

theorem foldlM_divideByFactor?_value {factors : List (Factor Rat)} {d : F}
    (hd : ChainValue I factors d) {e q : Expr Rat} {v : F}
    (hv : e.value? I = some v) (h : factors.foldlM divideByFactor? e = some q) :
    HasQuotient I q v d := by
  induction hd generalizing e v with
  | nil =>
    obtain rfl : e = q := Option.some.inj h
    exact ⟨v, hv, (mul_one v).symm⟩
  | cons hbase hexp _ _ ih =>
    rw [List.foldlM_cons] at h
    obtain ⟨e', he', h⟩ := Option.bind_eq_some_iff.mp h
    obtain ⟨u, hu, rfl⟩ := divideByFactor?_value hv hbase hexp he'
    obtain ⟨w, hw, rfl⟩ := ih hu h
    exact ⟨w, hw, by ring⟩

/-- An expression is divided by the factors of the divisor's chain in some order. -/
theorem exists_divideOut?_eq (e divisor : Expr Rat) :
    ∃ factors : List (Factor Rat), factors.Perm divisor.chain ∧
      divideOut? e divisor = factors.foldlM divideByFactor? e := by
  unfold divideOut?
  rw [List.partition_eq_filter_filter]
  exact ⟨_, List.perm_append_comm.trans (List.filter_append_perm _ divisor.chain), rfl⟩

/-- What is divided out, times the divisor, is the expression. -/
theorem divideOut?_value {e divisor q : Expr Rat} {v d : F}
    (hv : e.value? I = some v)
    (hd : divisor.value? I = some d) (h : divideOut? e divisor = some q) :
    HasQuotient I q v d := by
  obtain ⟨factors, hperm, heq⟩ := exists_divideOut?_eq e divisor
  rw [heq] at h
  exact foldlM_divideByFactor?_value ((chain_value hd).perm hperm.symm) hv h

end SymbolicCalculus.Expr
