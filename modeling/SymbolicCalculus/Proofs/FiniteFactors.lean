import SymbolicCalculus.Proofs.FiniteConstants
import SymbolicCalculus.Proofs.LocalProperty

/-!
# Factoring keeps constants finite

An exponent in a common factor is a count of occurrences, which may overflow. Such a factor is not
pulled out, since nothing with finite constants contains it: a base with an infinite constant does
not occur (`isZero_occurrences`), so nothing can be divided by it (`PowerQuotient.isFinite_base`).
What is left after a division has exponents that are differences or quotients of finite counts
(`isFinite_of_divideByPower?`). Nothing is divided infinitely often (`PowerQuotient.not_infinite`).
-/

namespace SymbolicCalculus.Expr

variable {base e q g : Expr Binary64} {n : Binary64}

/-! ## Occurrences -/

/-- A base that is not finite does not occur in a finite expression. -/
theorem isZero_occurrences (hbase : ¬ base.IsFinite) (he : e.IsFinite) :
    Binary64.IsZero (occurrences base e).number := by
  fun_induction occurrences base e with
  | case1 e heq => exact absurd ((isFinite_iff_of_beq heq).mp he) hbase
  | case2 a b _ iha ihb =>
    obtain ⟨ha, hb⟩ := isFinite_binary.mp he
    exact Binary64.isZero_add (iha ha) (ihb hb)
  | case3 a b _ iha ihb | case4 a b _ iha ihb =>
    obtain ⟨ha, hb⟩ := isFinite_binary.mp he
    show Binary64.IsZero (Binary64.minimum (occurrences base a) (occurrences base b)).number
    rcases Binary64.minimum_eq_or (occurrences base a) (occurrences base b) with heq | heq
    · rw [heq]
      exact iha ha
    · rw [heq]
      exact ihb hb
  | case5 a b _ iha => exact iha (isFinite_binary.mp he).1
  | case6 a k hk _ iha =>
    obtain ⟨ha, hfinite⟩ := isFinite_binary.mp he
    exact Binary64.isZero_mul (isFinite_const.mp hfinite) (iha ha)
  | case8 a _ iha => exact iha (isFinite_neg.mp he)
  | case7 | case9 => exact Binary64.isZero_natCast_zero

/-! ## Division by a power -/

/-- Nothing is divided by a base infinitely often. -/
theorem PowerQuotient.not_infinite (h : PowerQuotient base e n q) :
    n.number ≠ .infinity .positive := by
  intro hn
  induction h with
  | rest hle => exact Binary64.not_le_zero_of_infinite hn hle
  | self _ hone =>
    rw [Binary64.beq_one_of_infinite hn] at hone
    contradiction
  | @product a _ _ _ n _ _ _ iha ihb =>
    have hnan : (min (occurrences base a) n).isNaN = false := by
      refine Binary64.isNaN_minimum ?_
      rw [Binary64.isNaN_eq, hn]
      rfl
    rcases Binary64.infinite_sub hn _ hnan with hleft | hright
    · exact iha hleft
    · exact ihb hright
  | sum _ _ _ iha _ | difference _ _ _ iha _ => exact iha hn
  | quotient _ _ iha => exact iha hn
  | lowered _ hk _ hq =>
    have hfinite := Binary64.isFinite_of_isPositiveWhole hk
    exact (lowerPower?_cases hq).1 (Binary64.sub_infinite_lt_zero hn hfinite)
  | power _ hk _ hwhole _ _ =>
    have hfinite := Binary64.isFinite_of_isPositiveWhole hk
    rw [Binary64.isWhole_infinite_div hn hfinite] at hwhole
    contradiction
  | neg _ _ ih => exact ih hn

/-- A base that something with finite constants is divided by is finite. -/
theorem PowerQuotient.isFinite_base (h : PowerQuotient base e n q) (he : e.IsFinite)
    (hn : Nat.cast 1 ≤ n) : base.IsFinite := by
  by_contra hbase
  induction h with
  | rest hle =>
    exact ((Binary64.le_zero_iff _).mp hle).2 ((Binary64.one_le_iff _).mp hn).isAboveZero
  | self heq _ => exact hbase ((isFinite_iff_of_beq heq).mp he)
  | @product a _ _ _ n _ _ _ _ ihb =>
    obtain ⟨ha, hb⟩ := isFinite_binary.mp he
    have hzero := isZero_occurrences hbase ha
    have hleft : min (occurrences base a) n = occurrences base a :=
      Binary64.minimum_of_isZero hzero hn
    refine ihb hb ?_
    rw [hleft]
    exact Binary64.one_le_sub hn hzero
  | sum _ _ _ iha _ | difference _ _ _ iha _ => exact iha (isFinite_binary.mp he).1 hn
  | quotient _ _ iha => exact iha (isFinite_binary.mp he).1 hn
  | lowered _ _ heq _ => exact hbase ((isFinite_iff_of_beq heq).mp (isFinite_binary.mp he).1)
  | power _ hk _ hwhole _ ih =>
    exact ih (isFinite_binary.mp he).1 (Binary64.one_le_div hn hk hwhole)
  | neg _ _ ih => exact ih (isFinite_neg.mp he) hn

theorem isFinite_of_lowerPower? {inner : Expr Binary64} {k : Binary64} (hinner : inner.IsFinite)
    (hk : Scalar.isPositiveWhole k = true) (hn : n.isNaN = false) (hpos : ¬ n ≤ Nat.cast 0)
    (h : lowerPower? inner k n = some q) : q.IsFinite := by
  obtain ⟨hnonneg, ⟨-, rfl⟩ | ⟨-, rfl⟩ | ⟨-, rfl⟩⟩ := lowerPower?_cases h
  · exact isFinite_nat (by decide)
  · exact hinner
  · have hkfinite := Binary64.isFinite_of_isPositiveWhole hk
    have habove := Binary64.isAboveZero_of_not_le hn hpos
    have hfinite : n.isFinite = true := (Binary64.isFinite_or_infinite habove).resolve_right
      fun hinf => hnonneg (Binary64.sub_infinite_lt_zero hinf hkfinite)
    have hremaining := Binary64.isFinite_sub hkfinite hfinite
      (Binary64.isAboveZero_of_isPositiveWhole hk) habove
    exact isFinite_binary.mpr ⟨hinner, isFinite_const.mpr hremaining⟩

/-- What is left after a division by a power. -/
theorem isFinite_of_divideByPower? (he : e.IsFinite) (hn : n.isNaN = false)
    (h : divideByPower? base e n = some q) : q.IsFinite := by
  replace h := powerQuotient_of_divideByPower? h
  induction h with
  | rest => exact he
  | self => exact isFinite_nat (by decide)
  | @product a _ _ _ n hpos hqa hqb iha ihb =>
    obtain ⟨ha, hb⟩ := isFinite_binary.mp he
    have hleft : (min (occurrences base a) n).isNaN = false := Binary64.isNaN_minimum hn
    have hfinite : n.isFinite = true := by
      refine (Binary64.isFinite_or_infinite (Binary64.isAboveZero_of_not_le hn hpos)).resolve_right
        fun hinf => ?_
      rcases Binary64.infinite_sub hinf _ hleft with hinf | hinf
      · exact hqa.not_infinite hinf
      · exact hqb.not_infinite hinf
    exact isFinite_binary.mpr ⟨iha ha hleft, ihb hb (Binary64.isNaN_sub hfinite hleft)⟩
  | sum _ _ _ iha ihb | difference _ _ _ iha ihb =>
    obtain ⟨ha, hb⟩ := isFinite_binary.mp he
    exact isFinite_binary.mpr ⟨iha ha hn, ihb hb hn⟩
  | quotient _ _ iha =>
    obtain ⟨ha, hb⟩ := isFinite_binary.mp he
    exact isFinite_binary.mpr ⟨iha ha hn, hb⟩
  | lowered hpos hk _ hq => exact isFinite_of_lowerPower? (isFinite_binary.mp he).1 hk hn hpos hq
  | @power _ _ k n _ _ _ hwhole _ ih =>
    obtain ⟨ha, hk⟩ := isFinite_binary.mp he
    have hnan : (n / k).isNaN = false := by
      simp [Binary64.isNaN, Binary64.isFinite_of_isWhole hwhole]
    exact isFinite_binary.mpr ⟨ih ha hnan, hk⟩
  | neg _ _ ih => exact isFinite_neg.mpr (ih (isFinite_neg.mp he) hn)

theorem isFinite_of_divideByConstant? {k : Binary64} (he : e.IsFinite)
    (h : divideByConstant? k e = some q) : q.IsFinite := by
  replace h := constantQuotient_of_divideByConstant? h
  induction h with
  | one => exact he
  | const hr _ => exact isFinite_const.mpr (isFinite_of_result? hr)
  | left _ iha =>
    obtain ⟨ha, hb⟩ := isFinite_binary.mp he
    exact isFinite_binary.mpr ⟨iha ha, hb⟩
  | right _ ihb =>
    obtain ⟨ha, hb⟩ := isFinite_binary.mp he
    exact isFinite_binary.mpr ⟨ha, ihb hb⟩
  | sum _ _ iha ihb | difference _ _ iha ihb =>
    obtain ⟨ha, hb⟩ := isFinite_binary.mp he
    exact isFinite_binary.mpr ⟨iha ha, ihb hb⟩
  | quotient _ iha =>
    obtain ⟨ha, hb⟩ := isFinite_binary.mp he
    exact isFinite_binary.mpr ⟨iha ha, hb⟩
  | sign => exact isFinite_neg.mp he
  | neg _ ih => exact isFinite_neg.mpr (ih (isFinite_neg.mp he))

/-! ## Chains -/

/-- The exponents of a chain that were counts stay counts. -/
theorem one_le_of_mem_insert {exponent : Binary64} {factors : List (Factor Binary64)}
    (hexponent : Nat.cast 1 ≤ exponent)
    (hfactors : ∀ factor ∈ factors, Nat.cast 1 ≤ factor.exponent) :
    ∀ factor ∈ Factor.insert base exponent factors, Nat.cast 1 ≤ factor.exponent := by
  induction factors with
  | nil => exact List.forall_mem_singleton.mpr hexponent
  | cons head rest ih =>
    obtain ⟨hhead, hrest⟩ := List.forall_mem_cons.mp hfactors
    rw [Factor.insert]
    split
    · exact List.forall_mem_cons.mpr ⟨Binary64.one_le_add hhead hexponent, hrest⟩
    · exact List.forall_mem_cons.mpr ⟨hhead, ih hrest⟩

theorem one_le_of_mem_appendFactors {exponent : Binary64} {factors : List (Factor Binary64)}
    (hexponent : Nat.cast 1 ≤ exponent)
    (hfactors : ∀ factor ∈ factors, Nat.cast 1 ≤ factor.exponent) :
    ∀ factor ∈ e.appendFactors exponent factors, Nat.cast 1 ≤ factor.exponent := by
  fun_induction appendFactors exponent factors e with
  | case1 exponent factors a b iha ihb => exact ihb hexponent (iha hexponent hfactors)
  | case2 exponent factors a ih => exact ih hexponent (one_le_of_mem_insert hexponent hfactors)
  | case3 exponent factors a k hk ih =>
    exact ih (Binary64.one_le_mul hexponent (Binary64.one_le_of_isPositiveWhole hk)) hfactors
  | case4 exponent factors a k hk => exact one_le_of_mem_insert hexponent hfactors
  | case5 exponent factors e _ _ _ => exact one_le_of_mem_insert hexponent hfactors

theorem one_le_natCast_one : (Nat.cast 1 : Binary64) ≤ Nat.cast 1 := by
  decide

theorem one_le_of_mem_chain : ∀ factor ∈ e.chain, Nat.cast 1 ≤ factor.exponent :=
  one_le_of_mem_appendFactors one_le_natCast_one (List.forall_mem_nil _)

/-- A base that is inserted is in the chain, or one that is equal to it. -/
theorem isFinite_of_insert {exponent : Binary64} {factors : List (Factor Binary64)}
    (h : ∀ factor ∈ Factor.insert base exponent factors, factor.base.IsFinite) :
    base.IsFinite ∧ ∀ factor ∈ factors, factor.base.IsFinite := by
  induction factors with
  | nil => exact ⟨h ⟨base, exponent⟩ (List.mem_singleton_self _), List.forall_mem_nil _⟩
  | cons head rest ih =>
    rw [Factor.insert] at h
    split at h
    · next heq =>
      obtain ⟨hhead, hrest⟩ := List.forall_mem_cons.mp h
      exact ⟨(isFinite_iff_of_beq heq).mp hhead, List.forall_mem_cons.mpr ⟨hhead, hrest⟩⟩
    · obtain ⟨hhead, hinsert⟩ := List.forall_mem_cons.mp h
      obtain ⟨hbase, hrest⟩ := ih hinsert
      exact ⟨hbase, List.forall_mem_cons.mpr ⟨hhead, hrest⟩⟩

/-! ## Products of powers -/

/-- Is each factor of a product finite, or a finite base with some constant as its exponent? Such
are common factors, whose exponents are counts that may be infinite. -/
def HasFiniteBases : Expr Binary64 → Prop
  | product a b => a.HasFiniteBases ∧ b.HasFiniteBases
  | power a (const _) => a.IsFinite
  | e => e.IsFinite

theorem IsFinite.hasFiniteBases (he : e.IsFinite) : e.HasFiniteBases := by
  fun_induction HasFiniteBases e with
  | case1 a b iha ihb =>
    obtain ⟨ha, hb⟩ := isFinite_binary.mp he
    exact ⟨iha ha, ihb hb⟩
  | case2 a k => exact (isFinite_binary.mp he).1
  | case3 => exact he

/-- The bases in a chain say whether the expression is finite. -/
theorem isFinite_of_appendFactors {exponent : Binary64} {factors : List (Factor Binary64)}
    (he : e.HasFiniteBases)
    (h : ∀ factor ∈ e.appendFactors exponent factors, factor.base.IsFinite) :
    e.IsFinite ∧ ∀ factor ∈ factors, factor.base.IsFinite := by
  fun_induction appendFactors exponent factors e with
  | case1 exponent factors a b iha ihb =>
    obtain ⟨hb, ha⟩ := ihb he.2 h
    obtain ⟨ha, hfactors⟩ := iha he.1 ha
    exact ⟨isFinite_binary.mpr ⟨ha, hb⟩, hfactors⟩
  | case2 exponent factors a ih =>
    have ha : a.IsFinite := isFinite_neg.mp he
    exact ⟨isFinite_neg.mpr ha, (isFinite_of_insert (ih ha.hasFiniteBases h).2).2⟩
  | case3 exponent factors a k hk ih =>
    have ha : a.IsFinite := he
    have hfinite := isFinite_const.mpr (Binary64.isFinite_of_isPositiveWhole hk)
    exact ⟨isFinite_binary.mpr ⟨ha, hfinite⟩, (ih ha.hasFiniteBases h).2⟩
  | case4 exponent factors a k hk => exact isFinite_of_insert h
  | case5 exponent factors e _ _ _ => exact isFinite_of_insert h

theorem isFinite_minus_one : (const (-Nat.cast 1) : Expr Binary64).IsFinite := by
  decide

theorem isFinite_of_mem_appendFactors {exponent : Binary64} {factors : List (Factor Binary64)}
    (he : e.IsFinite) (hfactors : ∀ factor ∈ factors, factor.base.IsFinite) :
    ∀ factor ∈ e.appendFactors exponent factors, factor.base.IsFinite := by
  fun_induction appendFactors exponent factors e with
  | case1 exponent factors a b iha ihb =>
    obtain ⟨ha, hb⟩ := isFinite_binary.mp he
    exact ihb hb (iha ha hfactors)
  | case2 exponent factors a ih =>
    exact ih (isFinite_neg.mp he) (IsLocal.of_mem_insert isFinite_minus_one hfactors)
  | case3 exponent factors a k hk ih => exact ih (isFinite_binary.mp he).1 hfactors
  | case4 exponent factors a k hk => exact IsLocal.of_mem_insert he hfactors
  | case5 exponent factors e _ _ _ => exact IsLocal.of_mem_insert he hfactors

theorem hasFiniteBases_of_mem_appendFactors {exponent : Binary64}
    {factors : List (Factor Binary64)} (he : e.HasFiniteBases)
    (hfactors : ∀ factor ∈ factors, factor.base.HasFiniteBases) :
    ∀ factor ∈ e.appendFactors exponent factors, factor.base.HasFiniteBases := by
  fun_induction appendFactors exponent factors e with
  | case1 exponent factors a b iha ihb => exact ihb he.2 (iha he.1 hfactors)
  | case2 exponent factors a ih =>
    have ha : a.IsFinite := isFinite_neg.mp he
    exact ih ha.hasFiniteBases (IsLocal.of_mem_insert isFinite_minus_one.hasFiniteBases hfactors)
  | case3 exponent factors a k hk ih => exact ih (IsFinite.hasFiniteBases he) hfactors
  | case4 exponent factors a k hk => exact IsLocal.of_mem_insert he hfactors
  | case5 exponent factors e _ _ _ => exact IsLocal.of_mem_insert he hfactors

/-! ## Division by a product -/

/-- What is left after a division by a factor, whose base is a constant or finite. -/
theorem isFinite_of_divideByFactor? {factor : Factor Binary64} (he : e.IsFinite)
    (hexponent : Nat.cast 1 ≤ factor.exponent) (h : divideByFactor? e factor = some q) :
    q.IsFinite ∧ (factor.base.constant? = none → factor.base.IsFinite) := by
  unfold divideByFactor? at h
  split at h
  · next k hk =>
    refine ⟨isFinite_of_divideByConstant? he h, fun hnone => ?_⟩
    rw [hk] at hnone
    contradiction
  · exact ⟨isFinite_of_divideByPower? he (Binary64.isNaN_of_one_le hexponent) h, fun _ =>
      (powerQuotient_of_divideByPower? h).isFinite_base he hexponent⟩

theorem isFinite_of_foldlM_divideByFactor? {factors : List (Factor Binary64)} (he : e.IsFinite)
    (hexponents : ∀ factor ∈ factors, Nat.cast 1 ≤ factor.exponent)
    (h : factors.foldlM divideByFactor? e = some q) :
    q.IsFinite ∧ ∀ factor ∈ factors, factor.base.constant? = none → factor.base.IsFinite := by
  induction factors generalizing e with
  | nil =>
    obtain rfl := Option.some.inj h
    exact ⟨he, List.forall_mem_nil _⟩
  | cons head rest ih =>
    obtain ⟨hhead, hrest⟩ := List.forall_mem_cons.mp hexponents
    rw [List.foldlM_cons] at h
    obtain ⟨e', he', h⟩ := Option.bind_eq_some_iff.mp h
    obtain ⟨hfinite, hbase⟩ := isFinite_of_divideByFactor? he hhead he'
    obtain ⟨hq, hbases⟩ := ih hfinite hrest h
    exact ⟨hq, List.forall_mem_cons.mpr ⟨hbase, hbases⟩⟩

/-- What divides a finite expression is finite, and so is what is left. -/
theorem isFinite_of_divideOut? (he : e.IsFinite) (hg : g.HasFiniteBases)
    (h : divideOut? e g = some q) : q.IsFinite ∧ g.IsFinite := by
  unfold divideOut? at h
  rw [List.partition_eq_filter_filter] at h
  have hexponents : ∀ factor ∈ g.chain, Nat.cast 1 ≤ factor.exponent := one_le_of_mem_chain
  obtain ⟨hq, hbases⟩ := isFinite_of_foldlM_divideByFactor? he (List.forall_mem_append.mpr
    ⟨fun factor hmem => hexponents factor (List.mem_of_mem_filter hmem),
      fun factor hmem => hexponents factor (List.mem_of_mem_filter hmem)⟩) h
  have hchain : ∀ factor ∈ g.chain, factor.base.HasFiniteBases :=
    hasFiniteBases_of_mem_appendFactors hg (List.forall_mem_nil _)
  have hfinite : ∀ factor ∈ g.chain, factor.base.IsFinite := by
    intro factor hmem
    cases hconstant : factor.base.constant? with
    | none =>
      refine hbases factor (List.mem_append_left _ (List.mem_filter.mpr ⟨hmem, ?_⟩)) hconstant
      simp [hconstant]
    | some k =>
      have hfactor := hchain factor hmem
      unfold constant? at hconstant
      split at hconstant
      · next c hc =>
        rw [hc] at hfactor ⊢
        exact hfactor
      · contradiction
  exact ⟨hq, (isFinite_of_appendFactors hg hfinite).1⟩

/-! ## Common factors -/

theorem hasFiniteBases_toExpr {factor : Factor Binary64} (h : factor.base.IsFinite) :
    factor.toExpr.HasFiniteBases := by
  unfold Factor.toExpr
  split
  · exact h.hasFiniteBases
  · exact h

theorem isFinite_of_mem_sharedCoefficient {a b : Expr Binary64} :
    ∀ factor ∈ sharedCoefficient a b, factor.base.IsFinite := by
  intro factor hmem
  obtain ⟨k, hk, -, rfl⟩ := eq_of_mem_sharedCoefficient hmem
  exact isFinite_const.mpr (Binary64.isFinite_gcd? hk)

/-- A base that a finite expression contains is finite. -/
theorem isFinite_of_mem_sharedFactor {a : Expr Binary64} {factor : Factor Binary64}
    (hexponent : Nat.cast 1 ≤ factor.exponent) (h : factor.base.IsFinite ∨ a.IsFinite) :
    ∀ shared ∈ sharedFactor a factor, shared.base.IsFinite := by
  intro shared hmem
  obtain ⟨-, hone, rfl⟩ := eq_of_mem_sharedFactor hmem
  by_contra hbase
  have hzero := isZero_occurrences hbase (h.resolve_left hbase)
  have htimes : Scalar.toMin.min (occurrences factor.base a) factor.exponent =
      occurrences factor.base a := Binary64.minimum_of_isZero hzero hexponent
  unfold containment at hone
  rw [htimes] at hone
  dsimp only at hone
  split at hone
  · exact Binary64.not_one_le_of_isZero hzero hone
  · exact Binary64.not_one_le_of_isZero Binary64.isZero_natCast_zero hone

theorem hasFiniteBases_of_productOf? {factors : List (Factor Binary64)}
    (hfactors : ∀ factor ∈ factors, factor.base.IsFinite) (h : productOf? factors = some e) :
    e.HasFiniteBases :=
  productOf?_induction And.intro (fun factor hmem => hasFiniteBases_toExpr (hfactors factor hmem)) h

theorem hasFiniteBases_of_sharedFactors? {a b : Expr Binary64} (h : a.IsFinite ∨ b.IsFinite)
    (hshared : sharedFactors? a b = some g) : g.HasFiniteBases := by
  refine hasFiniteBases_of_productOf? (fun factor hmem => ?_) hshared
  rcases List.mem_append.mp hmem with hmem | hmem
  · exact isFinite_of_mem_sharedCoefficient factor hmem
  · obtain ⟨factor', hmem', hfactor⟩ := List.mem_flatMap.mp hmem
    refine isFinite_of_mem_sharedFactor (one_le_of_mem_chain factor' hmem') ?_ factor hfactor
    exact h.symm.imp_left fun hb =>
      isFinite_of_mem_appendFactors hb (List.forall_mem_nil _) factor' hmem'

theorem hasFiniteBases_of_sharedByChains? {a b : Expr Binary64} (h : a.IsFinite ∨ b.IsFinite)
    (hshared : sharedByChains? a b = some g) : g.HasFiniteBases := by
  rcases sharedByChains?_cases hshared with hshared | hshared
  · exact hasFiniteBases_of_sharedFactors? h hshared
  · exact hasFiniteBases_of_sharedFactors? h.symm hshared

theorem HasFiniteBases.isFinite_of_power {p n : Expr Binary64} (h : (power p n).HasFiniteBases) :
    p.IsFinite := by
  cases n with
  | const => exact h
  | _ => exact (isFinite_binary.mp h).1

theorem HasFiniteBases.isFinite_terms {l r : Expr Binary64} (he : e.HasFiniteBases)
    (h : e = sum l r ∨ e = difference l r) : l.IsFinite ∧ r.IsFinite := by
  rcases h with rfl | rfl
  · exact isFinite_binary.mp he
  · exact isFinite_binary.mp he

/-- One of the two is always finite, and the other may be a common factor found before. -/
theorem FoundFactor.hasFiniteBases {a b : Expr Binary64} (h : FoundFactor a b g)
    (ha : a.HasFiniteBases) (hb : b.HasFiniteBases) (hab : a.IsFinite ∨ b.IsFinite) :
    g.HasFiniteBases := by
  induction h with
  | leftZero => exact hb
  | rightZero => exact ha
  | same => exact ha
  | numbers hk => exact isFinite_const.mpr (Binary64.isFinite_gcd? hk)
  | chains h => exact hasFiniteBases_of_sharedByChains? hab h
  | bases _ ih =>
    exact ih ha.isFinite_of_power.hasFiniteBases hb.isFinite_of_power.hasFiniteBases
      (.inl ha.isFinite_of_power)
  | leftBase _ ih => exact ih ha.isFinite_of_power.hasFiniteBases hb (.inl ha.isFinite_of_power)
  | rightBase _ ih => exact ih hb.isFinite_of_power.hasFiniteBases ha (.inl hb.isFinite_of_power)
  | leftTerms hterms _ _ ihl ihr =>
    obtain ⟨hl, hr⟩ := ha.isFinite_terms hterms
    exact ihr (ihl hl.hasFiniteBases hb (.inl hl)) hr.hasFiniteBases (.inr hr)
  | rightTerms hterms _ _ ihl ihr =>
    obtain ⟨hl, hr⟩ := hb.isFinite_terms hterms
    exact ihr (ihl hl.hasFiniteBases ha (.inl hl)) hr.hasFiniteBases (.inr hr)

/-! ## Factoring -/

/-- What is pulled out of finite operands is finite, and so is what is left of them. -/
theorem isFinite_of_extract? {op : Operator} {a b a' b' : Expr Binary64} (ha : a.IsFinite)
    (hb : b.IsFinite) (h : extract? op a b = some (g, a', b')) :
    g.IsFinite ∧ a'.IsFinite ∧ b'.IsFinite := by
  obtain ⟨hg, ha', hb'⟩ := divideOut?_of_extract? h
  have hbases := (foundFactor_of_commonFactor? hg).hasFiniteBases ha.hasFiniteBases
    hb.hasFiniteBases (.inl ha)
  obtain ⟨ha', hg⟩ := isFinite_of_divideOut? ha hbases ha'
  exact ⟨hg, ha', (isFinite_of_divideOut? hb hbases hb').1⟩

/-- An expression with a common factor pulled out. -/
theorem isFinite_factored (he : e.IsFinite) : e.factored.expr.IsFinite := by
  rcases factored_cases e with heq | ⟨op, a, b, g, a', b', rfl, -, -, h, heq⟩
  · rw [heq]
    exact he
  · rw [heq]
    obtain ⟨ha, hb⟩ := isFinite_binary.mp he
    obtain ⟨hg, ha', hb'⟩ := isFinite_of_extract? ha hb h
    dsimp only
    split
    · exact isFinite_binary.mpr ⟨ha', hb'⟩
    · exact isFinite_binary.mpr ⟨isFinite_binary.mpr ⟨ha', hb'⟩, hg⟩

end SymbolicCalculus.Expr
