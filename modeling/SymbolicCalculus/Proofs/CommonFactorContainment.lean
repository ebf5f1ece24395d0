import SymbolicCalculus.Proofs.CommonFactorSearch

/-!
# A common factor is contained in both expressions

A base divides an expression as often as it is found there, and a number divides it where it leaves
an integer in one place. Whatever divides a common factor has to divide both expressions, as often
as it does the factor. This follows from the chains: a factor that two expressions share by their
chains is written down as often as the other expression contains it.

For that the chains have to be plain. The bases in a plain chain do not contain each other: the
one that is inside the other would be counted there as well. At most one number in it has a
magnitude other than one: the coefficient of a chain is the product of its numbers, and it divides
none of them where there are two.
-/

namespace SymbolicCalculus.Expr

/-! ## Numbers -/

/-- Does a number other than one divide an expression? It is looked for where bases are: in one
factor of a product, in both terms of a sum, in the numerator and in the base of a power. -/
def containsNumber (k : Rat) : Expr Rat → Bool
  | const c => k != 1 && Scalar.isWhole (c / k)
  | sum a b | difference a b => containsNumber k a && containsNumber k b
  | product a b => containsNumber k a || containsNumber k b
  | quotient a _ => containsNumber k a
  | neg a => k == -1 || containsNumber k a
  | power a (const n) => Scalar.isPositiveWhole n && containsNumber k a
  | _ => false

section numbers

variable {k : Rat} {base e a b : Expr Rat} {n : Nat}

theorem containsNumber_power (hn : 0 < n) :
    containsNumber k (power a (const n)) = containsNumber k a := by
  rw [containsNumber, Exact.isPositiveWhole_iff.mpr ⟨n, hn, rfl⟩, Bool.true_and]

/-- A number other than zero and one divides itself. -/
theorem containsNumber_const_self (hk : k ≠ 1) (hzero : k ≠ 0) :
    containsNumber k (const k) = true := by
  rw [containsNumber, div_self hzero, Bool.and_eq_true, bne_iff_ne]
  exact ⟨hk, rfl⟩

/-- What divides a number divides its multiples. -/
theorem containsNumber_const_mul {c : Rat} (m : Int) (h : containsNumber k (const c) = true) :
    containsNumber k (const (m * c)) = true := by
  rw [containsNumber, Bool.and_eq_true] at h ⊢
  obtain ⟨i, hi⟩ := Exact.isWhole_iff.mp h.2
  refine ⟨h.1, Exact.isWhole_iff.mpr ⟨m * i, ?_⟩⟩
  rw [mul_div_assoc, hi, Int.cast_mul]

/-- A number that divides a base divides what contains the base. -/
theorem containsNumber_of_multiplicity_pos (hk : containsNumber k base = true)
    (h : 0 < multiplicity base e) : containsNumber k e = true := by
  fun_induction multiplicity base e with
  | case1 => exact hk
  | case2 a b _ iha ihb =>
    rw [containsNumber, Bool.or_eq_true]
    by_cases ha : 0 < multiplicity base a
    · exact .inl (iha ha)
    · exact .inr (ihb (by omega))
  | case3 a b _ iha ihb | case4 a b _ iha ihb =>
    rw [containsNumber, Bool.and_eq_true]
    exact ⟨iha (by omega), ihb (by omega)⟩
  | case5 a b _ iha => exact iha h
  | case6 a c hc _ iha =>
    rw [containsNumber, hc, Bool.true_and]
    exact iha (Nat.pos_of_mul_pos_left h)
  | case7 => contradiction
  | case8 a _ iha =>
    rw [containsNumber, iha h, Bool.or_true]
  | case9 => contradiction

/-- A number divides a factor of a chain. A minus one may stand for a negation there, which no other
number divides. -/
def DividesFactor (k : Rat) (base : Expr Rat) : Prop :=
  containsNumber k base = true ∧ (base = const (-1) → k = -1)

/-- What follows from a number in an expression follows from one in the factors. -/
theorem of_dividesFactor {P : Prop} {exponent : Rat} {factors : List (Factor Rat)}
    (hfactors : ∀ factor ∈ factors, DividesFactor k factor.base → P)
    (he : containsNumber k e = true → P) :
    ∀ factor ∈ e.appendFactors exponent factors, DividesFactor k factor.base → P := by
  fun_induction appendFactors exponent factors e with
  | case1 exponent factors a b iha ihb =>
    refine ihb (iha hfactors fun ha => he ?_) fun hb => he ?_
    · rw [containsNumber, ha, Bool.true_or]
    · rw [containsNumber, hb, Bool.or_true]
  | case2 exponent factors a ih =>
    refine ih ((Factor.forall_mem_insert (P := fun base => DividesFactor k base → P)).mpr
      ⟨fun hk => he ?_, hfactors⟩) fun ha => he ?_
    · rw [containsNumber, hk.2 rfl]
      rfl
    · rw [containsNumber, ha, Bool.or_true]
  | case3 exponent factors a c hc ih =>
    refine ih hfactors fun ha => he ?_
    rw [containsNumber, hc, ha]
    rfl
  | case4 exponent factors a c hc =>
    exact (Factor.forall_mem_insert (P := fun base => DividesFactor k base → P)).mpr
      ⟨fun hk => he hk.1, hfactors⟩
  | case5 exponent factors e _ _ _ =>
    exact (Factor.forall_mem_insert (P := fun base => DividesFactor k base → P)).mpr
      ⟨fun hk => he hk.1, hfactors⟩

/-- A number that divides a factor of the chain divides the expression. -/
theorem containsNumber_of_mem_chain {factor : Factor Rat} (hmem : factor ∈ e.chain)
    (hk : DividesFactor k factor.base) : containsNumber k e = true :=
  of_dividesFactor (List.forall_mem_nil _) id factor hmem hk

end numbers

/-! ## Containment -/

/-- Whatever divides `g` divides `e`, a base as often and a number as well. -/
structure IsContained (g e : Expr Rat) : Prop where
  multiplicity_le : ∀ base : Expr Rat, base.IsBase → multiplicity base g ≤ multiplicity base e
  number : ∀ k, containsNumber k g = true → containsNumber k e = true

namespace IsContained

variable {g e a b : Expr Rat}

protected theorem refl (e : Expr Rat) : IsContained e e :=
  ⟨fun _ _ => le_rfl, fun _ => id⟩

protected theorem trans {f : Expr Rat} (h : IsContained f g) (h' : IsContained g e) :
    IsContained f e :=
  ⟨fun base hbase => (h.multiplicity_le base hbase).trans (h'.multiplicity_le base hbase),
    fun k hk => h'.number k (h.number k hk)⟩

theorem sum (ha : IsContained g a) (hb : IsContained g b) : IsContained g (.sum a b) := by
  refine ⟨fun base hbase => ?_, fun k hk => ?_⟩
  · exact (le_min (ha.multiplicity_le base hbase) (hb.multiplicity_le base hbase)).trans
      (min_multiplicity_le_sum base a b)
  · rw [containsNumber, ha.number k hk, hb.number k hk]
    rfl

theorem difference (ha : IsContained g a) (hb : IsContained g b) :
    IsContained g (.difference a b) := by
  refine ⟨fun base hbase => ?_, fun k hk => ?_⟩
  · exact (le_min (ha.multiplicity_le base hbase) (hb.multiplicity_le base hbase)).trans
      (min_multiplicity_le_difference base a b)
  · rw [containsNumber, ha.number k hk, hb.number k hk]
    rfl

theorem power {n : Nat} (hn : 0 < n) (ha : IsContained g a) :
    IsContained g (.power a (const n)) := by
  refine ⟨fun base hbase => ?_, fun k hk => ?_⟩
  · rw [multiplicity_power hbase hn]
    exact (ha.multiplicity_le base hbase).trans (Nat.le_mul_of_pos_left _ hn)
  · rw [containsNumber_power hn, ha.number k hk]

end IsContained

/-! ## Coprime bases -/

/-- None of the bases is contained in another one. -/
def AreCoprime (bases : List (Expr Rat)) : Prop :=
  ∀ base ∈ bases, ∀ other ∈ bases, base ≠ other → multiplicity base other = 0

section coprime

variable {bases : List (Expr Rat)}

/-- How often an expression contains a base within other bases, which it contains so often. -/
def multiplicityWithin (bases : List (Expr Rat)) (base e : Expr Rat) : Nat :=
  (bases.map fun other => multiplicity other e * multiplicity base other).sum

theorem multiplicityWithin_eq_zero {base e : Expr Rat}
    (h : ∀ other ∈ bases, multiplicity other e = 0) : multiplicityWithin bases base e = 0 := by
  refine List.sum_eq_zero fun x hx => ?_
  obtain ⟨other, hmem, rfl⟩ := List.mem_map.mp hx
  rw [h other hmem, Nat.zero_mul]

theorem multiplicityWithin_le_of_le {base e a : Expr Rat}
    (h : ∀ other ∈ bases, multiplicity other e ≤ multiplicity other a) :
    multiplicityWithin bases base e ≤ multiplicityWithin bases base a :=
  List.sum_le_sum fun other hmem => Nat.mul_le_mul_right _ (h other hmem)

/-- An expression is itself one of several coprime bases, so it contains no other one. -/
theorem multiplicityWithin_le_of_mem {base e : Expr Rat} (hnodup : bases.Nodup)
    (hcoprime : AreCoprime bases) (hmem : e ∈ bases) :
    multiplicityWithin bases base e ≤ multiplicity base e := by
  have hcount : bases.count e ≤ 1 := List.nodup_iff_count.mp hnodup e
  have hle : multiplicityWithin bases base e ≤
      (bases.map fun other => (if e = other then 1 else 0) * multiplicity base e).sum := by
    refine List.sum_le_sum fun other hother => ?_
    by_cases heq : e = other
    · rw [← heq, multiplicity_self, if_pos rfl]
    · rw [hcoprime other hother e hmem (Ne.symm heq), Nat.zero_mul]
      exact Nat.zero_le _
  rw [List.sum_map_mul_right, sum_map_ite_eq_count] at hle
  exact hle.trans ((Nat.mul_le_mul_right _ hcount).trans (Nat.one_mul _).le)

/-- Coprime bases stand in different places, so what they contain adds up. -/
theorem multiplicityWithin_le {base : Expr Rat} (hnodup : bases.Nodup)
    (hbases : ∀ base ∈ bases, base.IsBase) (hcoprime : AreCoprime bases) (hbase : base.IsBase)
    (e : Expr Rat) : multiplicityWithin bases base e ≤ multiplicity base e := by
  have hself (e : Expr Rat)
      (h : (∀ other ∈ bases, e ≠ other) → multiplicityWithin bases base e ≤ multiplicity base e) :
      multiplicityWithin bases base e ≤ multiplicity base e := by
    by_cases hmem : e ∈ bases
    · exact multiplicityWithin_le_of_mem hnodup hcoprime hmem
    · exact h fun other hother heq => hmem (heq ▸ hother)
  induction e using induction_multiplicity with
  | product a b iha ihb =>
    have hsum : multiplicityWithin bases base (product a b) ≤
        multiplicityWithin bases base a + multiplicityWithin bases base b := by
      unfold multiplicityWithin
      rw [← List.sum_map_add]
      refine List.sum_le_sum fun other hother => ?_
      rw [multiplicity_product (hbases other hother), Nat.add_mul]
    rw [multiplicity_product hbase]
    omega
  | neg a iha =>
    rw [multiplicity_neg hbase]
    refine (multiplicityWithin_le_of_le fun other hother => ?_).trans iha
    rw [multiplicity_neg (hbases other hother)]
  | power a n hn iha =>
    have hmul : multiplicityWithin bases base (power a (const n)) ≤
        n * multiplicityWithin bases base a := by
      unfold multiplicityWithin
      rw [← List.sum_map_mul_left]
      refine List.sum_le_sum fun other hother => ?_
      rw [multiplicity_power (hbases other hother) hn, Nat.mul_assoc]
    rw [multiplicity_power hbase hn]
    exact hmul.trans (Nat.mul_le_mul_left n iha)
  | terms e a b _ heq hmin iha ihb =>
    refine hself e fun hne => (le_min ?_ ?_).trans (hmin base)
    · refine (multiplicityWithin_le_of_le fun other hother => ?_).trans iha
      exact (heq other (hne other hother)).trans_le (Nat.min_le_left _ _)
    · refine (multiplicityWithin_le_of_le fun other hother => ?_).trans ihb
      exact (heq other (hne other hother)).trans_le (Nat.min_le_right _ _)
  | quotient a b iha =>
    refine hself _ fun hne => ?_
    refine (multiplicityWithin_le_of_le fun other hother => ?_).trans
      (iha.trans (multiplicity_le_quotient base a b))
    rw [multiplicity_quotient (hne other hother)]
  | single e hzero =>
    refine hself e fun hne => ?_
    rw [multiplicityWithin_eq_zero fun other hother => hzero other (hne other hother)]
    exact Nat.zero_le _

end coprime

/-! ## Plain expressions -/

/-- A chain without zeros and with coprime bases, in which at most one number is more than a sign
and is not repeated. -/
structure IsPlainChain (factors : List (Factor Rat)) : Prop where
  nonzero : ∀ factor ∈ factors, factor.base ≠ const 0
  once : ∀ factor ∈ factors, IsCoefficient factor → factor.exponent = 1
  one : ∀ factor ∈ factors, ∀ other ∈ factors, IsCoefficient factor → IsCoefficient other →
    factor.base = other.base
  coprime : ∀ factor ∈ factors, ∀ other ∈ factors, factor.base.IsBase → other.base.IsBase →
    factor.base ≠ other.base → multiplicity factor.base other.base = 0

/-- The chains of an expression are plain, and so are those of the parts that common factors are
looked for in. Exponents are positive integers there. -/
def IsPlain : Expr Rat → Prop
  | const k => k ≠ 0
  | sum a b | difference a b => a.IsPlain ∧ b.IsPlain
  | product a b => a.IsPlain ∧ b.IsPlain ∧ IsPlainChain (product a b).chain
  | neg a => a.IsPlain ∧ IsPlainChain (neg a).chain
  | power a (const n) =>
    Scalar.isPositiveWhole n = true ∧ a.IsPlain ∧ IsPlainChain (power a (const n)).chain
  | power _ _ => False
  | _ => True

instance (factors : List (Factor Rat)) : Decidable (IsPlainChain factors) :=
  decidable_of_iff
    ((∀ factor ∈ factors, factor.base ≠ const 0) ∧
      (∀ factor ∈ factors, IsCoefficient factor → factor.exponent = 1) ∧
      (∀ factor ∈ factors, ∀ other ∈ factors, IsCoefficient factor → IsCoefficient other →
        factor.base = other.base) ∧
      ∀ factor ∈ factors, ∀ other ∈ factors, factor.base.IsBase → other.base.IsBase →
        factor.base ≠ other.base → multiplicity factor.base other.base = 0)
    ⟨fun ⟨h₁, h₂, h₃, h₄⟩ => ⟨h₁, h₂, h₃, h₄⟩, fun ⟨h₁, h₂, h₃, h₄⟩ => ⟨h₁, h₂, h₃, h₄⟩⟩

instance decidableIsPlain : DecidablePred IsPlain
  | const k => inferInstanceAs (Decidable (k ≠ 0))
  | sum a b | difference a b =>
    have := decidableIsPlain a
    have := decidableIsPlain b
    inferInstanceAs (Decidable (a.IsPlain ∧ b.IsPlain))
  | product a b =>
    have := decidableIsPlain a
    have := decidableIsPlain b
    inferInstanceAs (Decidable (a.IsPlain ∧ b.IsPlain ∧ IsPlainChain (product a b).chain))
  | neg a =>
    have := decidableIsPlain a
    inferInstanceAs (Decidable (a.IsPlain ∧ IsPlainChain (neg a).chain))
  | power a (const n) =>
    have := decidableIsPlain a
    inferInstanceAs (Decidable (Scalar.isPositiveWhole n = true ∧ a.IsPlain ∧
      IsPlainChain (power a (const n)).chain))
  | power _ (param _) | power _ (binary _ _ _) | power _ (neg _) | power _ (call₀ _)
  | power _ (call₁ _ _) | power _ (call₂ _ _ _) => isFalse id
  | quotient _ _ => isTrue trivial
  | param _ | call₀ _ | call₁ _ _ | call₂ _ _ _ => isTrue trivial

section plain

variable {e a b g : Expr Rat} {factors factors' : List (Factor Rat)}

theorem IsPlainChain.mono (h : IsPlainChain factors)
    (hsub : ∀ factor ∈ factors', factor ∈ factors) : IsPlainChain factors' where
  nonzero factor hmem := h.nonzero factor (hsub factor hmem)
  once factor hmem := h.once factor (hsub factor hmem)
  one factor hmem other hother := h.one factor (hsub factor hmem) other (hsub other hother)
  coprime factor hmem other hother := h.coprime factor (hsub factor hmem) other (hsub other hother)

theorem IsPlainChain.areCoprime (h : IsPlainChain e.chain) :
    AreCoprime ((properFactors e.chain).map Factor.base) := by
  intro base hbase other hother hne
  obtain ⟨factor, hmem, rfl⟩ := List.mem_map.mp hbase
  obtain ⟨factor', hmem', rfl⟩ := List.mem_map.mp hother
  exact h.coprime factor (mem_properFactors.mp hmem).1 factor' (mem_properFactors.mp hmem').1
    (isBase_of_mem_properFactors hmem) (isBase_of_mem_properFactors hmem') hne

theorem isPlainChain_singleton {factor : Factor Rat} (hzero : factor.base ≠ const 0)
    (honce : IsCoefficient factor → factor.exponent = 1) : IsPlainChain [factor] where
  nonzero := List.forall_mem_singleton.mpr hzero
  once := List.forall_mem_singleton.mpr honce
  one := List.forall_mem_singleton.mpr (List.forall_mem_singleton.mpr fun _ _ => rfl)
  coprime := List.forall_mem_singleton.mpr
    (List.forall_mem_singleton.mpr fun _ _ hne => absurd rfl hne)

theorem not_isCoefficient_of_isBase {base : Expr Rat} (h : base.IsBase) (exponent : Rat) :
    ¬ IsCoefficient ⟨base, exponent⟩ := by
  rintro ⟨k, rfl, -⟩
  exact h

theorem IsBase.ne_const (h : e.IsBase) (k : Rat) : e ≠ const k := by
  rintro rfl
  exact h

theorem IsPlain.chain (h : e.IsPlain) : IsPlainChain e.chain := by
  by_cases hbase : e.IsBase
  · rw [chain_of_isBase hbase]
    exact isPlainChain_singleton (hbase.ne_const 0) fun hcoefficient =>
      absurd hcoefficient (not_isCoefficient_of_isBase hbase 1)
  · cases e with
    | const k =>
      refine isPlainChain_singleton (fun heq => h (const.inj heq)) fun _ => ?_
      exact Nat.cast_one
    | neg a => exact h.2
    | binary op a b =>
      cases op with
      | times => exact h.2.2
      | power =>
        cases b with
        | const n => exact h.2.2
        | _ => contradiction
      | _ => exact absurd trivial hbase
    | _ => exact absurd trivial hbase

/-- The bases of a plain expression's chain are plain. -/
theorem IsPlain.of_mem_appendFactors {exponent : Rat} (h : e.IsPlain)
    (hfactors : ∀ factor ∈ factors, factor.base.IsPlain) :
    ∀ factor ∈ e.appendFactors exponent factors, factor.base.IsPlain := by
  fun_induction appendFactors exponent factors e with
  | case1 exponent factors a b iha ihb => exact ihb h.2.1 (iha h.1 hfactors)
  | case2 exponent factors a ih =>
    refine ih h.1 ((Factor.forall_mem_insert (P := IsPlain)).mpr ⟨?_, hfactors⟩)
    show (-Nat.cast 1 : Rat) ≠ 0
    norm_num
  | case3 exponent factors a k hk ih => exact ih h.2.1 hfactors
  | case4 exponent factors a k hk =>
    exact (Factor.forall_mem_insert (P := IsPlain)).mpr ⟨h, hfactors⟩
  | case5 exponent factors e _ _ _ =>
    exact (Factor.forall_mem_insert (P := IsPlain)).mpr ⟨h, hfactors⟩

theorem IsPlain.of_mem_chain (h : e.IsPlain) {factor : Factor Rat} (hmem : factor ∈ e.chain) :
    factor.base.IsPlain :=
  h.of_mem_appendFactors (List.forall_mem_nil _) factor hmem

/-- The one number that is more than a sign is the coefficient. -/
theorem coefficient_eq_magnitude (h : IsPlainChain e.chain) {factor : Factor Rat}
    (hmem : factor ∈ e.chain) {c : Rat} (hc : factor.base = const c)
    (hne : Scalar.magnitude c ≠ 1) : e.coefficient = Scalar.magnitude c := by
  have hnodup := nodup_chain e
  have hwhole := hasWholeExponents_chain e
  have hcoefficient : IsCoefficient factor := ⟨c, hc, hne⟩
  obtain ⟨s, t, hst⟩ := List.append_of_mem hmem
  have hone : ∀ other ∈ e.chain, other.base ≠ factor.base → factorMagnitude other = 1 := by
    intro other hother hbase
    obtain ⟨n, -, hexp⟩ := hwhole other hother
    exact factorMagnitude_eq_one hexp fun hcoefficient' =>
      hbase (h.one other hother factor hmem hcoefficient' hcoefficient)
  have hself : factorMagnitude factor = Scalar.magnitude c := by
    have hexp : factor.exponent = (1 : Nat) := (h.once factor hmem hcoefficient).trans rfl
    unfold factorMagnitude
    rw [hc]
    dsimp only
    rw [hexp, Exact.power_natCast, pow_one]
  rw [coefficient_eq_prod]
  rw [hst] at hnodup hone ⊢
  rw [List.map_append, List.map_cons, List.nodup_append, List.nodup_cons] at hnodup
  obtain ⟨-, ⟨ht, -⟩, hs⟩ := hnodup
  have hprod (l : List (Factor Rat)) (hl : ∀ other ∈ l, factorMagnitude other = 1) :
      (l.map factorMagnitude).prod = 1 := by
    refine List.prod_eq_one fun x hx => ?_
    obtain ⟨other, hother, rfl⟩ := List.mem_map.mp hx
    exact hl other hother
  rw [List.map_append, List.prod_append, List.map_cons, List.prod_cons, hself,
    hprod s fun other hother => hone other (List.mem_append_left _ hother) ?_,
    hprod t fun other hother =>
      hone other (List.mem_append_right _ (List.mem_cons_of_mem _ hother)) ?_, one_mul, mul_one]
  · exact fun heq => ht (heq ▸ List.mem_map_of_mem hother)
  · exact hs _ (List.mem_map_of_mem hother) _ List.mem_cons_self

end plain

/-! ## Products of factors -/

/-- The factors can be those of a chain. -/
structure IsChain (factors : List (Factor Rat)) : Prop where
  whole : HasWholeExponents factors
  nodup : (factors.map Factor.base).Nodup
  base : ∀ factor ∈ factors, factor.base.IsChainBase

section products

variable {e g : Expr Rat} {factor : Factor Rat} {factors rest : List (Factor Rat)}

theorem insert_of_not_mem {base : Expr Rat} {exponent : Rat} (h : base ∉ factors.map Factor.base) :
    Factor.insert base exponent factors = factors ++ [⟨base, exponent⟩] := by
  induction factors with
  | nil => rfl
  | cons head rest ih =>
    rw [List.map_cons, List.mem_cons, not_or] at h
    rw [Factor.insert, if_neg (by simpa using Ne.symm h.1), ih h.2]
    rfl

theorem appendFactors_of_isChainBase {base : Expr Rat} (h : base.IsChainBase) (exponent : Rat) :
    base.appendFactors exponent factors = Factor.insert base exponent factors := by
  cases hconst : base.constant? with
  | some k =>
    cases base with
    | const k => rw [appendFactors] <;> simp
    | _ => contradiction
  | none => exact appendFactors_of_isBase (h hconst) exponent factors

theorem appendFactors_toExpr {n : Nat} (hn : 0 < n) (hexp : factor.exponent = n)
    (h : factor.base.IsChainBase) :
    factor.toExpr.appendFactors 1 factors = Factor.insert factor.base factor.exponent factors := by
  unfold Factor.toExpr
  split
  · next hone =>
    rw [appendFactors_of_isChainBase h, eq_of_beq hone]
    rfl
  · rw [hexp, appendFactors, if_pos (Exact.isPositiveWhole_iff.mpr ⟨n, hn, rfl⟩),
      appendFactors_of_isChainBase h, one_mul]

/-- The chain of a product has the factor after those of the first operand. -/
theorem chain_product_toExpr (h : IsChain (e.chain ++ [factor])) :
    (product e factor.toExpr).chain = e.chain ++ [factor] := by
  obtain ⟨n, hn, hexp⟩ := h.whole factor (List.mem_append_right _ (List.mem_singleton_self _))
  have hbase := h.base factor (List.mem_append_right _ (List.mem_singleton_self _))
  have hnodup := h.nodup
  rw [List.map_append, List.nodup_append] at hnodup
  have hnot : factor.base ∉ e.chain.map Factor.base := fun hmem =>
    hnodup.2.2 _ hmem _ (List.mem_singleton_self _) rfl
  show factor.toExpr.appendFactors (Nat.cast 1) e.chain = _
  exact (appendFactors_toExpr hn hexp hbase).trans (insert_of_not_mem hnot)

theorem chain_toExpr (h : IsChain [factor]) : factor.toExpr.chain = [factor] := by
  obtain ⟨n, hn, hexp⟩ := h.whole factor (List.mem_singleton_self _)
  exact appendFactors_toExpr hn hexp (h.base factor (List.mem_singleton_self _))

theorem isPlain_toExpr (h : IsChain [factor]) (hplain : IsPlainChain [factor])
    (hbase : factor.base.IsPlain) : factor.toExpr.IsPlain := by
  have hchain := chain_toExpr h
  obtain ⟨n, hn, hexp⟩ := h.whole factor (List.mem_singleton_self _)
  unfold Factor.toExpr at hchain ⊢
  split
  · exact hbase
  · next hne =>
    rw [if_neg hne] at hchain
    rw [hexp] at hchain ⊢
    refine ⟨Exact.isPositiveWhole_iff.mpr ⟨n, hn, rfl⟩, hbase, ?_⟩
    rw [hchain]
    exact hplain

theorem isChain_of_sublist (h : IsChain factors) (hsub : rest.Sublist factors) : IsChain rest where
  whole factor hmem := h.whole factor (hsub.mem hmem)
  nodup := h.nodup.sublist (hsub.map _)
  base factor hmem := h.base factor (hsub.mem hmem)

/-- A product of more factors has them after the chain that there is. -/
theorem chain_foldl_product (he : e.IsPlain) (h : IsChain (e.chain ++ rest))
    (hplain : IsPlainChain (e.chain ++ rest)) (hrest : ∀ factor ∈ rest, factor.base.IsPlain) :
    (rest.foldl (fun e f => product e f.toExpr) e).chain = e.chain ++ rest ∧
      (rest.foldl (fun e f => product e f.toExpr) e).IsPlain := by
  induction rest generalizing e with
  | nil =>
    rw [List.append_nil]
    exact ⟨rfl, he⟩
  | cons factor rest ih =>
    obtain ⟨hfactor, hrest⟩ := List.forall_mem_cons.mp hrest
    rw [List.append_cons] at h hplain ⊢
    have hchain := chain_product_toExpr (isChain_of_sublist h (List.sublist_append_left _ _))
    have hone : [factor].Sublist (e.chain ++ [factor] ++ rest) :=
      (List.sublist_append_right _ _).trans (List.sublist_append_left _ _)
    have htoExpr := isPlain_toExpr (isChain_of_sublist h hone)
      (hplain.mono fun _ hmem => hone.mem hmem) hfactor
    rw [← hchain] at h hplain ⊢
    refine ih ⟨he, htoExpr, ?_⟩ h hplain hrest
    exact hplain.mono fun _ hmem => List.mem_append_left _ hmem

/-- The product of some factors has them as its chain, and is plain if they are. -/
theorem chain_of_productOf? (h : IsChain factors) (hplain : IsPlainChain factors)
    (hbases : ∀ factor ∈ factors, factor.base.IsPlain) (hg : productOf? factors = some g) :
    g.chain = factors ∧ g.IsPlain := by
  cases factors with
  | nil => contradiction
  | cons head rest =>
    obtain rfl := Option.some.inj hg
    obtain ⟨hhead, hrest⟩ := List.forall_mem_cons.mp hbases
    have hone : [head].Sublist (head :: rest) := List.sublist_append_left [head] rest
    have hchain := chain_toExpr (isChain_of_sublist h hone)
    have htoExpr := isPlain_toExpr (isChain_of_sublist h hone)
      (hplain.mono fun _ hmem => hone.mem hmem) hhead
    rw [← List.singleton_append, ← hchain] at h hplain ⊢
    exact chain_foldl_product htoExpr h hplain hrest

end products

/-! ## Shared factors -/

section shared

variable {a b g : Expr Rat} {factor : Factor Rat} {factors : List (Factor Rat)} {k : Rat}

/-- A shared factor is one of the chain, as often as it and the other expression say. -/
theorem exists_of_mem_sharedFactor {n : Nat} (hexp : factor.exponent = n) {shared : Factor Rat}
    (h : shared ∈ sharedFactor a factor) :
    factor.base.constant? = none ∧ 1 ≤ min (multiplicity factor.base a) n ∧
      shared = ⟨factor.base, (min (multiplicity factor.base a) n : Nat)⟩ := by
  obtain ⟨hconst, hone, rfl⟩ := eq_of_mem_sharedFactor h
  rw [containment_eq hexp] at hone ⊢
  exact ⟨hconst, Nat.cast_le.mp hone, rfl⟩

theorem sublist_map_base_flatMap_sharedFactor (h : HasWholeExponents factors) :
    ((factors.flatMap (sharedFactor a)).map Factor.base).Sublist (factors.map Factor.base) := by
  induction factors with
  | nil => exact List.nil_sublist _
  | cons head rest ih =>
    obtain ⟨⟨n, -, hexp⟩, hrest⟩ := List.forall_mem_cons.mp h
    rw [List.flatMap_cons, List.map_append, List.map_cons]
    cases hconst : head.base.constant? with
    | some c =>
      rw [sharedFactor_of_constant? (by rw [hconst]; rfl)]
      exact (ih hrest).cons _
    | none =>
      rw [sharedFactor_eq hexp hconst]
      split
      · exact (ih hrest).cons_cons _
      · exact (ih hrest).cons _

/-- A common coefficient is a natural number above one that divides both. -/
theorem exists_of_mem_sharedCoefficient (h : factor ∈ sharedCoefficient a b) :
    ∃ (l : Nat) (m n : Int), 1 < l ∧ sharedCoefficient a b = [⟨const l, 1⟩] ∧
      a.coefficient = m ∧ b.coefficient = n ∧ (l : Int) ∣ m ∧ (l : Int) ∣ n := by
  obtain ⟨k, hk, hone, -⟩ := eq_of_mem_sharedCoefficient h
  obtain ⟨m, n, hm, hn, rfl⟩ := gcd?_eq_some.mp hk
  refine ⟨m.gcd n, m, n, by exact_mod_cast hone, ?_, Exact.whole?_eq_some.mp hm,
    Exact.whole?_eq_some.mp hn, Int.gcd_dvd_left _ _, Int.gcd_dvd_right _ _⟩
  rw [sharedCoefficient, hk]
  exact if_pos hone

/-- What divides a divisor of the coefficient divides the expression. -/
theorem containsNumber_of_coefficient {e : Expr Rat} (h : IsPlainChain e.chain) {l : Nat}
    {m : Int} (hl : 1 < l) (hm : e.coefficient = m) (hdvd : (l : Int) ∣ m)
    (hk : containsNumber k (const l) = true) : containsNumber k e = true := by
  have hne : e.coefficient ≠ 1 := by
    intro hone
    rw [hm] at hone
    obtain rfl : m = 1 := by exact_mod_cast hone
    have := Int.le_of_dvd Int.one_pos hdvd
    omega
  obtain ⟨factor, hmem, c, hc, hmagnitude⟩ := exists_isCoefficient hne
  have hcoefficient := coefficient_eq_magnitude h hmem hc hmagnitude
  rw [hm] at hcoefficient
  obtain ⟨i, rfl⟩ := hdvd
  have hmul : ∃ j : Int, c = j * l := by
    change _ = (if c < 0 then -c else c) at hcoefficient
    split at hcoefficient
    · refine ⟨-i, ?_⟩
      rw [← neg_neg c, ← hcoefficient]
      push_cast
      ring
    · refine ⟨i, ?_⟩
      rw [← hcoefficient]
      push_cast
      ring
  obtain ⟨j, hj⟩ := hmul
  refine containsNumber_of_mem_chain hmem ⟨?_, fun hsign => ?_⟩
  · rw [hc, hj]
    exact containsNumber_const_mul j hk
  · rw [hc] at hsign
    obtain rfl : c = -1 := const.inj hsign
    exact absurd (by decide) hmagnitude

/-- A factor of what is shared is the common coefficient, or a base in the chain of `b` that `a`
contains so often. -/
theorem shared_cases
    (h : factor ∈ sharedCoefficient a b ++ b.chain.flatMap (sharedFactor a)) :
    (∃ l : Nat, 1 < l ∧ factor = ⟨const l, 1⟩ ∧ sharedCoefficient a b = [factor]) ∨
      factor.base.IsBase ∧ (∃ other ∈ b.chain, other.base = factor.base) ∧
        ∃ n : Nat, 0 < n ∧ factor.exponent = n ∧ n ≤ multiplicity factor.base a := by
  rcases List.mem_append.mp h with hmem | hmem
  · obtain ⟨l, -, -, hl, heq, -⟩ := exists_of_mem_sharedCoefficient hmem
    rw [heq] at hmem
    obtain rfl := List.mem_singleton.mp hmem
    exact .inl ⟨l, hl, rfl, heq⟩
  · obtain ⟨other, hother, hshared⟩ := List.mem_flatMap.mp hmem
    obtain ⟨n, -, hexp⟩ := hasWholeExponents_chain b other hother
    obtain ⟨hconst, hpos, rfl⟩ := exists_of_mem_sharedFactor hexp hshared
    have hbase : other.base.IsBase := isBase_of_mem_chain hother hconst
    exact .inr ⟨hbase, ⟨other, hother, rfl⟩, _, hpos, rfl, Nat.min_le_left _ _⟩

theorem isChain_shared (a b : Expr Rat) :
    IsChain (sharedCoefficient a b ++ b.chain.flatMap (sharedFactor a)) where
  whole factor hmem := by
    rcases shared_cases hmem with ⟨l, -, rfl, -⟩ | ⟨-, -, n, hn, hexp, -⟩
    · exact ⟨1, Nat.one_pos, rfl⟩
    · exact ⟨n, hn, hexp⟩
  nodup := by
    have hsub := sublist_map_base_flatMap_sharedFactor (a := a) (hasWholeExponents_chain b)
    have hnodup := (nodup_chain b).sublist hsub
    rw [List.map_append]
    cases hshared : sharedCoefficient a b with
    | nil => exact hnodup
    | cons head rest =>
      obtain ⟨l, -, -, -, heq, -⟩ :=
        exists_of_mem_sharedCoefficient (hshared ▸ List.mem_cons_self (a := head) (l := rest))
      rw [hshared] at heq
      obtain ⟨rfl, rfl⟩ := List.cons.inj heq
      refine List.nodup_cons.mpr ⟨fun hmem => ?_, hnodup⟩
      obtain ⟨factor, hfactor, hbase⟩ := List.mem_map.mp hmem
      obtain ⟨other, hother, hmem⟩ := List.mem_flatMap.mp hfactor
      obtain ⟨n, -, hexp⟩ := hasWholeExponents_chain b other hother
      obtain ⟨hconst, -, rfl⟩ := exists_of_mem_sharedFactor hexp hmem
      exact absurd hconst (by rw [show other.base = _ from hbase]; exact nofun)
  base factor hmem := by
    rcases shared_cases hmem with ⟨l, -, rfl, -⟩ | ⟨hbase, -⟩
    · exact nofun
    · exact fun _ => hbase

theorem isPlainChain_shared (h : IsPlainChain b.chain) :
    IsPlainChain (sharedCoefficient a b ++ b.chain.flatMap (sharedFactor a)) where
  nonzero factor hmem := by
    rcases shared_cases hmem with ⟨l, hl, rfl, -⟩ | ⟨hbase, -⟩
    · intro hzero
      have hl' : (l : Rat) = 0 := const.inj hzero
      have : l = 0 := by exact_mod_cast hl'
      omega
    · exact hbase.ne_const 0
  once factor hmem hcoefficient := by
    rcases shared_cases hmem with ⟨l, -, rfl, -⟩ | ⟨hbase, -⟩
    · rfl
    · exact absurd hcoefficient (not_isCoefficient_of_isBase hbase factor.exponent)
  one factor hmem other hother hcoefficient hcoefficient' := by
    rcases shared_cases hmem with ⟨l, -, -, heq⟩ | ⟨hbase, -⟩
    · rcases shared_cases hother with ⟨l', -, -, heq'⟩ | ⟨hbase', -⟩
      · rw [heq] at heq'
        rw [(List.cons.inj heq').1]
      · exact absurd hcoefficient' (not_isCoefficient_of_isBase hbase' other.exponent)
    · exact absurd hcoefficient (not_isCoefficient_of_isBase hbase factor.exponent)
  coprime factor hmem other hother hbase hbase' hne := by
    rcases shared_cases hmem with ⟨l, -, rfl, -⟩ | ⟨-, ⟨f, hf, hfbase⟩, -⟩
    · exact hbase.elim
    rcases shared_cases hother with ⟨l, -, rfl, -⟩ | ⟨-, ⟨f', hf', hfbase'⟩, -⟩
    · exact hbase'.elim
    rw [← hfbase, ← hfbase'] at hne ⊢
    rw [← hfbase] at hbase
    rw [← hfbase'] at hbase'
    exact h.coprime f hf f' hf' hbase hbase' hne

theorem chainMultiplicity_sharedCoefficient {base : Expr Rat} (hbase : base.IsBase)
    (a b : Expr Rat) : chainMultiplicity base (sharedCoefficient a b) = 0 := by
  cases hshared : sharedCoefficient a b with
  | nil => rfl
  | cons head rest =>
    obtain ⟨l, -, -, -, heq, -⟩ :=
      exists_of_mem_sharedCoefficient (hshared ▸ List.mem_cons_self (a := head) (l := rest))
    rw [← hshared, heq]
    simp [chainMultiplicity, multiplicity_const hbase]

/-- What the shared factors contain, they contain in the chain and within the other expression. -/
theorem chainMultiplicity_flatMap_sharedFactor_le (a base : Expr Rat)
    (h : HasWholeExponents factors) :
    chainMultiplicity base (factors.flatMap (sharedFactor a)) ≤ chainMultiplicity base factors ∧
      chainMultiplicity base (factors.flatMap (sharedFactor a)) ≤
        multiplicityWithin ((properFactors factors).map Factor.base) base a := by
  induction factors with
  | nil => exact ⟨Nat.zero_le _, Nat.zero_le _⟩
  | cons head rest ih =>
    obtain ⟨⟨n, -, hexp⟩, hrest⟩ := List.forall_mem_cons.mp h
    obtain ⟨hchain, hwithin⟩ := ih hrest
    rw [List.flatMap_cons]
    cases hconst : head.base.constant? with
    | some c =>
      have hsome : head.base.constant?.isSome = true := by rw [hconst]; rfl
      rw [sharedFactor_of_constant? hsome, properFactors_cons_of_isSome _ hsome]
      refine ⟨hchain.trans ?_, hwithin⟩
      exact Nat.le_add_left _ _
    | none =>
      have hle : chainMultiplicity base (sharedFactor a head) ≤
          min (multiplicity head.base a) n * multiplicity base head.base := by
        rw [sharedFactor_eq hexp hconst]
        split
        · rw [chainMultiplicity, List.map_singleton, List.sum_singleton, Rat.num_natCast,
            Int.toNat_natCast]
        · exact Nat.zero_le _
      have hleft := Nat.mul_le_mul_right (multiplicity base head.base)
        (Nat.min_le_left (multiplicity head.base a) n)
      have hright := Nat.mul_le_mul_right (multiplicity base head.base)
        (Nat.min_le_right (multiplicity head.base a) n)
      rw [properFactors_cons _ hconst]
      unfold chainMultiplicity multiplicityWithin at *
      simp only [List.map_append, List.sum_append, List.map_cons, List.sum_cons, hexp,
        Rat.num_natCast, Int.toNat_natCast]
      omega

theorem containsNumber_of_toExpr (hk : containsNumber k factor.toExpr = true) :
    containsNumber k factor.base = true := by
  unfold Factor.toExpr at hk
  split at hk
  · exact hk
  · rw [containsNumber, Bool.and_eq_true] at hk
    exact hk.2

/-- A number that divides the product of some factors divides one of them. -/
theorem exists_containsNumber_of_productOf? (hg : productOf? factors = some g)
    (hk : containsNumber k g = true) : ∃ factor ∈ factors, containsNumber k factor.base = true := by
  refine productOf?_induction
    (P := fun e => containsNumber k e = true →
      ∃ factor ∈ factors, containsNumber k factor.base = true)
    (fun ha hb hk => ?_) (fun factor hmem hk => ?_) hg hk
  · rw [containsNumber, Bool.or_eq_true] at hk
    exact hk.elim ha hb
  · exact ⟨factor, hmem, containsNumber_of_toExpr hk⟩

theorem isPlain_of_sharedFactors? (hb : b.IsPlain) (h : sharedFactors? a b = some g) :
    g.chain = sharedCoefficient a b ++ b.chain.flatMap (sharedFactor a) ∧ g.IsPlain := by
  refine chain_of_productOf? (isChain_shared a b) (isPlainChain_shared hb.chain) ?_ h
  intro factor hmem
  rcases shared_cases hmem with ⟨l, hl, rfl, -⟩ | ⟨-, ⟨other, hother, hbase⟩, -⟩
  · show (l : Rat) ≠ 0
    have hne : l ≠ 0 := by omega
    exact_mod_cast hne
  · rw [← hbase]
    exact hb.of_mem_chain hother

theorem multiplicity_sharedFactors?_le (hb : b.IsPlain) (h : sharedFactors? a b = some g)
    {base : Expr Rat} (hbase : base.IsBase) :
    multiplicity base g ≤ multiplicity base a ∧ multiplicity base g ≤ multiplicity base b := by
  have hwhole := hasWholeExponents_chain b
  obtain ⟨hchain, hwithin⟩ := chainMultiplicity_flatMap_sharedFactor_le a base hwhole
  have hg : multiplicity base g = chainMultiplicity base (b.chain.flatMap (sharedFactor a)) := by
    have hzero := chainMultiplicity_sharedCoefficient hbase a b
    rw [multiplicity_eq_chainMultiplicity hbase, (isPlain_of_sharedFactors? hb h).1]
    unfold chainMultiplicity at hzero ⊢
    rw [List.map_append, List.sum_append, hzero, Nat.zero_add]
  rw [hg]
  refine ⟨hwithin.trans ?_, ?_⟩
  · exact multiplicityWithin_le (nodup_properFactors b) isBase_of_mem_map_properFactors
      hb.chain.areCoprime hbase a
  · rw [multiplicity_eq_chainMultiplicity hbase b]
    exact hchain

theorem containsNumber_of_sharedFactors? (ha : a.IsPlain) (hb : b.IsPlain)
    (h : sharedFactors? a b = some g) (hk : containsNumber k g = true) :
    containsNumber k a = true ∧ containsNumber k b = true := by
  obtain ⟨factor, hmem, hk⟩ := exists_containsNumber_of_productOf? h hk
  rcases shared_cases hmem with ⟨-, -, -, heq⟩ | ⟨hbase, ⟨other, hother, heq⟩, n, hn, -, hle⟩
  · have hcoefficient : factor ∈ sharedCoefficient a b := heq ▸ List.mem_singleton_self factor
    obtain ⟨l, m, n, hl, heq', hm, hn, hdvd, hdvd'⟩ := exists_of_mem_sharedCoefficient hcoefficient
    rw [heq'] at hcoefficient
    obtain rfl := List.mem_singleton.mp hcoefficient
    exact ⟨containsNumber_of_coefficient ha.chain hl hm hdvd hk,
      containsNumber_of_coefficient hb.chain hl hn hdvd' hk⟩
  · refine ⟨containsNumber_of_multiplicity_pos hk (hn.trans_le hle), ?_⟩
    refine containsNumber_of_mem_chain hother ⟨by rwa [heq], fun hsign => ?_⟩
    rw [heq] at hsign
    exact absurd hsign (hbase.ne_const (-1))

/-- What is shared is plain and contained in both expressions. -/
theorem isContained_of_sharedFactors? (ha : a.IsPlain) (hb : b.IsPlain)
    (h : sharedFactors? a b = some g) : g.IsPlain ∧ IsContained g a ∧ IsContained g b :=
  ⟨(isPlain_of_sharedFactors? hb h).2,
    ⟨fun _ hbase => (multiplicity_sharedFactors?_le hb h hbase).1,
      fun _ hk => (containsNumber_of_sharedFactors? ha hb h hk).1⟩,
    ⟨fun _ hbase => (multiplicity_sharedFactors?_le hb h hbase).2,
      fun _ hk => (containsNumber_of_sharedFactors? ha hb h hk).2⟩⟩

theorem isContained_of_sharedByChains? (ha : a.IsPlain) (hb : b.IsPlain)
    (h : sharedByChains? a b = some g) : g.IsPlain ∧ IsContained g a ∧ IsContained g b := by
  rcases sharedByChains?_cases h with h | h
  · exact isContained_of_sharedFactors? ha hb h
  · obtain ⟨hg, hgb, hga⟩ := isContained_of_sharedFactors? hb ha h
    exact ⟨hg, hga, hgb⟩

end shared

/-! ## Common factors -/

section common

variable {a b g : Expr Rat}

/-- The greatest common divisor of two numbers. -/
theorem isContained_of_gcd? {x y k : Rat} (hx : x ≠ 0) (h : Scalar.gcd? x y = some k) :
    (const k).IsPlain ∧ IsContained (const k) (const x) ∧ IsContained (const k) (const y) := by
  obtain ⟨m, n, hm, hn, rfl⟩ := gcd?_eq_some.mp h
  obtain rfl := Exact.whole?_eq_some.mp hm
  obtain rfl := Exact.whole?_eq_some.mp hn
  have hdvd (i : Int) (hi : (m.gcd n : Int) ∣ i) :
      IsContained (const ((m.gcd n : Nat) : Rat)) (const (i : Rat)) := by
    refine ⟨fun base hbase => by rw [multiplicity_const hbase]; exact Nat.zero_le _, ?_⟩
    intro k hk
    obtain ⟨j, rfl⟩ := hi
    have hmul : (((m.gcd n : Int) * j : Int) : Rat) = j * ((m.gcd n : Nat) : Rat) := by
      push_cast
      ring
    rw [hmul]
    exact containsNumber_const_mul j hk
  refine ⟨?_, hdvd m (Int.gcd_dvd_left _ _), hdvd n (Int.gcd_dvd_right _ _)⟩
  show ((m.gcd n : Nat) : Rat) ≠ 0
  have hm0 : m ≠ 0 := by exact_mod_cast hx
  have hgcd : m.gcd n ≠ 0 := fun hzero => hm0 (Int.gcd_eq_zero_iff.mp hzero).1
  exact_mod_cast hgcd

/-- The base of a power is plain and contained in the power. -/
theorem IsPlain.isContained_base {p n : Expr Rat} (h : (power p n).IsPlain) :
    p.IsPlain ∧ IsContained p (power p n) := by
  cases n with
  | const k =>
    obtain ⟨m, hm, rfl⟩ := Exact.isPositiveWhole_iff.mp h.1
    exact ⟨h.2.1, (IsContained.refl p).power hm⟩
  | _ => contradiction

/-- The terms of a sum are plain, and what they contain, the sum contains. -/
theorem IsPlain.isContained_of_terms {l r : Expr Rat} (ha : a.IsPlain)
    (h : a = sum l r ∨ a = difference l r) :
    l.IsPlain ∧ r.IsPlain ∧ (IsContained g l → IsContained g r → IsContained g a) := by
  rcases h with rfl | rfl
  · exact ⟨ha.1, ha.2, IsContained.sum⟩
  · exact ⟨ha.1, ha.2, IsContained.difference⟩

theorem IsPlain.isZero_eq_false (h : a.IsPlain) : a.isZero = false := by
  cases a with
  | const k => exact beq_false_of_ne h
  | _ => rfl

/-- What is found for two plain expressions is plain, and contained in both. -/
theorem FoundFactor.isContained (h : FoundFactor a b g) (ha : a.IsPlain) (hb : b.IsPlain) :
    g.IsPlain ∧ IsContained g a ∧ IsContained g b := by
  induction h with
  | leftZero hzero =>
    rw [ha.isZero_eq_false] at hzero
    contradiction
  | rightZero hzero =>
    rw [hb.isZero_eq_false] at hzero
    contradiction
  | same hab =>
    obtain rfl := eq_of_beq hab
    exact ⟨ha, .refl _, .refl _⟩
  | numbers hk => exact isContained_of_gcd? ha hk
  | chains h => exact isContained_of_sharedByChains? ha hb h
  | bases _ ih =>
    obtain ⟨hp, hpa⟩ := ha.isContained_base
    obtain ⟨hq, hqb⟩ := hb.isContained_base
    obtain ⟨hg, hgp, hgq⟩ := ih hp hq
    exact ⟨hg, hgp.trans hpa, hgq.trans hqb⟩
  | leftBase _ ih =>
    obtain ⟨hp, hpa⟩ := ha.isContained_base
    obtain ⟨hg, hgp, hgb⟩ := ih hp hb
    exact ⟨hg, hgp.trans hpa, hgb⟩
  | rightBase _ ih =>
    obtain ⟨hq, hqb⟩ := hb.isContained_base
    obtain ⟨hg, hgq, hga⟩ := ih hq ha
    exact ⟨hg, hga, hgq.trans hqb⟩
  | leftTerms hterms _ _ ihl ihr =>
    obtain ⟨hl, hr, hsum⟩ := ha.isContained_of_terms hterms
    obtain ⟨hg', hgl, hgb⟩ := ihl hl hb
    obtain ⟨hg, hgg', hgr⟩ := ihr hg' hr
    exact ⟨hg, hsum (hgg'.trans hgl) hgr, hgg'.trans hgb⟩
  | rightTerms hterms _ _ ihl ihr =>
    obtain ⟨hl, hr, hsum⟩ := hb.isContained_of_terms hterms
    obtain ⟨hg', hgl, hga⟩ := ihl hl ha
    obtain ⟨hg, hgg', hgr⟩ := ihr hg' hr
    exact ⟨hg, hgg'.trans hga, hsum (hgg'.trans hgl) hgr⟩

/-- **A common factor is contained in both expressions**, if their chains are plain. -/
theorem isContained_of_commonFactor? (ha : a.IsPlain) (hb : b.IsPlain)
    (h : commonFactor? a b = some g) : g.IsPlain ∧ IsContained g a ∧ IsContained g b :=
  (foundFactor_of_commonFactor? h).isContained ha hb

end common

end SymbolicCalculus.Expr
