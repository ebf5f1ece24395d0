import SymbolicCalculus.Proofs.ReductionValue
import SymbolicCalculus.Proofs.Rewriting

/-!
# What is divided out, times the divisor

A base can only be taken out of an expression whose value depends on it
(`hasValue_of_divideByPower?`), so the divisor of a quotient that is returned has a value wherever
the expression has one. The expression is the quotient times the divisor there
(`divideOut?_refines`), whether or not the divisor is zero. A factor that is pulled out of a node is
such a divisor of both operands, which keeps the node's value and keeps its denominator away from
zero (`factored_value`).
-/

namespace SymbolicCalculus

/-- The base of a new factor is among the bases of a chain, together with those that were there. -/
theorem Factor.forall_mem_insert {P : Expr Rat → Prop} {base : Expr Rat} {exponent : Rat}
    {factors : List (Factor Rat)} :
    (∀ factor ∈ Factor.insert base exponent factors, P factor.base) ↔
      P base ∧ ∀ factor ∈ factors, P factor.base := by
  induction factors with
  | nil => simp [Factor.insert]
  | cons head rest ih =>
    rw [Factor.insert]
    split
    · next heq => simp [eq_of_beq heq]
    · simp only [List.forall_mem_cons, ih]
      exact and_left_comm

namespace Expr

open Exact (meaning)

variable {param : String → Option Rat} {call : Builtin → List Rat → Option Rat}

/-! ## Chains -/

/-- Every exponent of a chain is a positive integer. -/
def HasWholeExponents (factors : List (Factor Rat)) : Prop :=
  ∀ factor ∈ factors, ∃ n : Nat, 0 < n ∧ factor.exponent = n

theorem HasWholeExponents.insert {base : Expr Rat} {n : Nat} {factors : List (Factor Rat)}
    (h : HasWholeExponents factors) (hn : 0 < n) :
    HasWholeExponents (Factor.insert base n factors) := by
  induction factors with
  | nil => exact List.forall_mem_singleton.mpr ⟨n, hn, rfl⟩
  | cons head rest ih =>
    obtain ⟨⟨m, hm, hexp⟩, hrest⟩ := List.forall_mem_cons.mp h
    rw [Factor.insert]
    split
    · refine List.forall_mem_cons.mpr ⟨⟨m + n, by omega, ?_⟩, hrest⟩
      rw [hexp]
      exact (Nat.cast_add m n).symm
    · exact List.forall_mem_cons.mpr ⟨⟨m, hm, hexp⟩, ih hrest⟩

theorem hasWholeExponents_appendFactors {e : Expr Rat} {factors : List (Factor Rat)} {n : Nat}
    (h : HasWholeExponents factors) (hn : 0 < n) :
    HasWholeExponents (e.appendFactors n factors) := by
  generalize hexponent : (n : Rat) = exponent
  fun_induction appendFactors exponent factors e generalizing n with
  | case1 exponent factors a b iha ihb => exact ihb (iha h hn hexponent) hn hexponent
  | case2 exponent factors a ih =>
    subst hexponent
    exact ih (h.insert hn) hn rfl
  | case3 exponent factors a k hk ih =>
    subst hexponent
    obtain ⟨m, hm, rfl⟩ := Exact.isPositiveWhole_iff.mp hk
    exact ih h (Nat.mul_pos hn hm) (Nat.cast_mul n m)
  | case4 exponent factors a k hk =>
    subst hexponent
    exact h.insert hn
  | case5 exponent factors e _ _ _ =>
    subst hexponent
    exact h.insert hn

theorem hasWholeExponents_chain (e : Expr Rat) : HasWholeExponents e.chain := by
  have hnil : HasWholeExponents [] := by simp [HasWholeExponents]
  have h := hasWholeExponents_appendFactors (e := e) hnil Nat.one_pos
  rwa [Nat.cast_one] at h

/-- If all bases of the chain have values, so has the expression that was appended to it. -/
theorem hasValue_of_appendFactors {exponent : Rat} {factors : List (Factor Rat)} {e : Expr Rat}
    (h : ∀ factor ∈ e.appendFactors exponent factors,
      factor.base.HasValue (meaning param call)) :
    e.HasValue (meaning param call) ∧
      ∀ factor ∈ factors, factor.base.HasValue (meaning param call) := by
  fun_induction appendFactors exponent factors e with
  | case1 exponent factors a b iha ihb =>
    obtain ⟨hb, hrest⟩ := ihb h
    obtain ⟨ha, hfactors⟩ := iha hrest
    exact ⟨product_hasValue ha hb, hfactors⟩
  | case2 exponent factors a ih =>
    obtain ⟨⟨x, hx⟩, hrest⟩ := ih h
    exact ⟨⟨-x, value?_neg_iff.mpr ⟨x, hx, rfl⟩⟩, (Factor.forall_mem_insert.mp hrest).2⟩
  | case3 exponent factors a k hk ih =>
    obtain ⟨⟨x, hx⟩, hfactors⟩ := ih h
    obtain ⟨m, hm, rfl⟩ := Exact.isPositiveWhole_iff.mp hk
    exact ⟨⟨x ^ m, value?_power_nat hx hm⟩, hfactors⟩
  | case4 exponent factors a k hk => exact Factor.forall_mem_insert.mp h
  | case5 exponent factors e _ _ _ => exact Factor.forall_mem_insert.mp h

theorem hasValue_of_chain {e : Expr Rat}
    (h : ∀ factor ∈ e.chain, factor.base.HasValue (meaning param call)) :
    e.HasValue (meaning param call) :=
  (hasValue_of_appendFactors h).1

/-! ## Bases that divide an expression -/

/-- A base that can be taken out of an expression has a value wherever the expression has one. -/
theorem hasValue_of_divideByPower? {base e q : Expr Rat} {n : Nat} (hn : 0 < n)
    (he : e.HasValue (meaning param call)) (h : divideByPower? base e (n : Rat) = some q) :
    base.HasValue (meaning param call) := by
  replace h := powerQuotient_of_divideByPower? h
  generalize hexponent : (n : Rat) = exponent at h
  induction h generalizing n with
  | rest hle =>
    subst hexponent
    have hzero : (n : Rat) ≤ (0 : Nat) := hle
    have : n ≤ 0 := by exact_mod_cast hzero
    omega
  | self hbase _ => rwa [← eq_of_beq hbase]
  | @product a b _ _ _ _ _ _ iha ihb =>
    subst hexponent
    obtain ⟨i, j, hij, hi, hj⟩ := exists_split base a n
    -- Of the two factors of a product, one has the base taken out at least once.
    by_cases hpos : 0 < i
    · exact iha hpos he.left hi.symm
    · exact ihb (by omega) he.right (hj.symm.trans (by rw [← hi]))
  | sum _ _ _ iha _ | difference _ _ _ iha _ => exact iha hn he.left hexponent
  | quotient _ _ iha => exact iha hn he.left hexponent
  | lowered _ _ hbase _ =>
    rw [← eq_of_beq hbase]
    exact he.left
  | power _ hk _ hwhole _ ih =>
    subst hexponent
    obtain ⟨m, hm, rfl⟩ := Exact.isPositiveWhole_iff.mp hk
    obtain ⟨j, hj, rfl⟩ := exists_div_eq hm hwhole
    exact ih (Nat.pos_of_mul_pos_right hn) he.left hj.symm
  | neg _ _ ih => exact ih hn he.inner hexponent

theorem hasValue_of_divideByFactor? {e q : Expr Rat} {factor : Factor Rat} {n : Nat} (hn : 0 < n)
    (hexp : factor.exponent = n) (he : e.HasValue (meaning param call))
    (h : divideByFactor? e factor = some q) : factor.base.HasValue (meaning param call) := by
  unfold divideByFactor? at h
  split at h
  · next k hk =>
    rw [hk]
    exact ⟨k, value?_const k⟩
  · rw [hexp] at h
    exact hasValue_of_divideByPower? hn he h

/-- All bases of the factors that an expression is divided by in turn have values. -/
theorem hasValue_of_foldlM_divideByFactor? {factors : List (Factor Rat)}
    (hexp : HasWholeExponents factors) {e q : Expr Rat} (he : e.HasValue (meaning param call))
    (h : factors.foldlM divideByFactor? e = some q) :
    ∀ factor ∈ factors, factor.base.HasValue (meaning param call) := by
  induction factors generalizing e with
  | nil => simp
  | cons factor rest ih =>
    obtain ⟨⟨n, hn, hfactor⟩, hrest⟩ := List.forall_mem_cons.mp hexp
    rw [List.foldlM_cons] at h
    obtain ⟨e', he', h⟩ := Option.bind_eq_some_iff.mp h
    have hbase := hasValue_of_divideByFactor? hn hfactor he he'
    refine List.forall_mem_cons.mpr ⟨hbase, ih hrest ?_ h⟩
    obtain ⟨v, hv⟩ := he
    obtain ⟨x, hx⟩ := hbase
    obtain ⟨u, hu, -⟩ := divideByFactor?_value hv hx hfactor he'
    exact ⟨u, hu⟩

/-- What divides an expression has a value wherever the expression has one. -/
theorem hasValue_of_divideOut? {e divisor q : Expr Rat} (he : e.HasValue (meaning param call))
    (h : divideOut? e divisor = some q) : divisor.HasValue (meaning param call) := by
  obtain ⟨factors, hperm, heq⟩ := exists_divideOut?_eq e divisor
  rw [heq] at h
  have hexp : HasWholeExponents factors :=
    fun factor hmem => hasWholeExponents_chain divisor factor (hperm.mem_iff.mp hmem)
  refine hasValue_of_chain fun factor hmem => ?_
  exact hasValue_of_foldlM_divideByFactor? hexp he h factor (hperm.mem_iff.mpr hmem)

/-- An expression is the quotient times the divisor, wherever it has a value. -/
theorem divideOut?_refines {e divisor q : Expr Rat} (h : divideOut? e divisor = some q) :
    Refines (meaning param call) e (product q divisor) := by
  intro v hv
  obtain ⟨d, hd⟩ := hasValue_of_divideOut? ⟨v, hv⟩ h
  obtain ⟨u, hu, rfl⟩ := divideOut?_value hv hd h
  exact value?_product_iff.mpr ⟨u, d, hu, hd, rfl⟩

/-- **Dividing out is exact.** For any values of the parameters and any meaning of the builtin
functions: where an expression has a value, what is divided out of it has one, and so has the
divisor, zero or not, and the value of the expression is the product of the two. -/
theorem divideOut?_exact (param : String → Option Rat) (call : Builtin → List Rat → Option Rat)
    {e divisor q : Expr Rat} (h : divideOut? e divisor = some q) {v : Rat}
    (hv : e.value? (.arithmetic param call) = some v) :
    ∃ u d, q.value? (.arithmetic param call) = some u ∧
      divisor.value? (.arithmetic param call) = some d ∧ v = u * d := by
  obtain ⟨u, d, hu, hd, rfl⟩ := value?_product_iff.mp (divideOut?_refines h v hv)
  exact ⟨u, d, hu, hd, rfl⟩

/-- `-(2*x)` divides `6*x*(-y)`, also where it is zero. -/
theorem divideOut?_exact_of_zero :
    let e : Expr Rat := .product (.product (nat 6) (.param "x")) (.neg (.param "y"))
    let divisor : Expr Rat := .neg (.product (nat 2) (.param "x"))
    let q : Expr Rat := .product (.product (.const (-3)) (nat 1)) (.neg (.param "y"))
    let I : Interpretation Rat Rat :=
      .arithmetic (fun p => if p = "x" then some 0 else some 5) (fun _ _ => none)
    divideOut? e divisor = some q ∧ e.value? I = some 0 ∧
      ∃ u d, q.value? I = some u ∧ divisor.value? I = some d ∧ 0 = u * d := by
  intro e divisor q I
  have h : divideOut? e divisor = some q := by decide +kernel
  have hv : e.value? I = some 0 := by decide +kernel
  exact ⟨h, hv, divideOut?_exact _ _ h hv⟩

/-! ## Factors that are pulled out -/

/-- Each operand is its quotient times the factor that is pulled out. -/
theorem extract?_refines {op : Operator} {l r g l' r' : Expr Rat}
    (h : extract? op l r = some (g, l', r')) :
    Refines (meaning param call) l (product l' g) ∧
      Refines (meaning param call) r (product r' g) := by
  obtain ⟨-, hl, hr⟩ := divideOut?_of_extract? h
  exact ⟨divideOut?_refines hl, divideOut?_refines hr⟩

theorem ne_zero_of_refines_product {e q g : Expr Rat} {y : Rat}
    (h : Refines (meaning param call) e (product q g))
    (hy : e.value? (meaning param call) = some y) (hne : y ≠ 0) :
    ∃ w, q.value? (meaning param call) = some w ∧ w ≠ 0 := by
  obtain ⟨w, d, hw, -, rfl⟩ := value?_product_iff.mp (h y hy)
  exact ⟨w, hw, left_ne_zero_of_mul hne⟩

/-- A quotient that comes of factoring has a denominator that is not zero where the denominator
before was not. -/
theorem factored_denominator {l r l' r' : Expr Rat} {y : Rat}
    (h : (quotient l r).factored.expr = quotient l' r')
    (hy : r.value? (meaning param call) = some y) (hne : y ≠ 0) :
    ∃ w, r'.value? (meaning param call) = some w ∧ w ≠ 0 := by
  rcases factored_cases (quotient l r) with
    heq | ⟨op, a, b, g, a', b', hnode, -, -, hextract, heq⟩
  · rw [heq] at h
    obtain ⟨-, -, rfl⟩ := binary.inj h
    exact ⟨y, hy, hne⟩
  · obtain ⟨rfl, rfl, rfl⟩ := binary.inj hnode
    rw [heq, if_pos rfl] at h
    obtain ⟨-, -, rfl⟩ := binary.inj h
    exact ne_zero_of_refines_product (extract?_refines hextract).2 hy hne

/-- **Factoring keeps the value.** For any values of the parameters and any meaning of the builtin
functions: where an expression has a value, it has the same one with the common factor of its
operands pulled out. Each operand is its quotient times the factor, with its sign, and a denominator
that is not zero stays so. -/
theorem factored_value (param : String → Option Rat) (call : Builtin → List Rat → Option Rat)
    (e : Expr Rat) :
    (∀ v, e.value? (.arithmetic param call) = some v →
        e.factored.expr.value? (.arithmetic param call) = some v) ∧
      (∀ op l r g l' r', e = binary op l r → extract? op l r = some (g, l', r') →
        Refines (.arithmetic param call) l (product l' g) ∧
          Refines (.arithmetic param call) r (product r' g)) ∧
      ∀ l r l' r', e = quotient l r → e.factored.expr = quotient l' r' →
        ∀ y, r.value? (.arithmetic param call) = some y → y ≠ 0 →
          ∃ w, r'.value? (.arithmetic param call) = some w ∧ w ≠ 0 := by
  refine ⟨factored_refines e, ?_, ?_⟩
  · intro op l r g l' r' _ hextract
    exact extract?_refines hextract
  · intro l r l' r' he hfactored y hy hne
    subst he
    exact factored_denominator hfactored hy hne

/-- `(-x)*(4*x) / (6*(-x)^2)` at three becomes `(-1)*(2*1) / (3*(-1)^2)`. -/
theorem factored_value_of_quotient :
    let x : Expr Rat := .param "x"
    let l : Expr Rat := .product (.neg x) (.product (nat 4) x)
    let r : Expr Rat := .product (nat 6) (.power (.neg x) (nat 2))
    let l' : Expr Rat := .product (.neg (nat 1)) (.product (nat 2) (nat 1))
    let r' : Expr Rat := .product (nat 3) (.power (.neg (nat 1)) (nat 2))
    let I : Interpretation Rat Rat := .arithmetic (fun _ => some 3) (fun _ _ => none)
    (quotient l r).value? I = some (-2 / 3) ∧
      (quotient l r).factored.expr.value? I = some (-2 / 3) ∧
        (quotient l r).factored.expr = quotient l' r' ∧ r.value? I = some 54 ∧
          ∃ w, r'.value? I = some w ∧ w ≠ 0 := by
  intro x l r l' r' I
  have hv : (quotient l r).value? I = some (-2 / 3) := by decide +kernel
  have hfactored : (quotient l r).factored.expr = quotient l' r' := by decide +kernel
  have hr : r.value? I = some 54 := by decide +kernel
  obtain ⟨hvalue, -, hdenominator⟩ := factored_value _ _ (quotient l r)
  exact ⟨hv, hvalue _ hv, hfactored, hr, hdenominator l r l' r' rfl hfactored 54 hr (by decide)⟩

end Expr

end SymbolicCalculus
