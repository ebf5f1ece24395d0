import Mathlib.Algebra.BigOperators.Group.List.Basic
import Mathlib.Algebra.Order.BigOperators.Group.List
import SymbolicCalculus.Proofs.ExactDivision

/-!
# Multiplicities

How often a base divides an expression, as a natural number (`multiplicity`), and what a chain is
made of: no two of its factors have the same base (`nodup_chain`), a base is a number or is not
taken apart any further (`isBase_of_mem_chain`), and an expression contains a base as often as the
factors of its chain do together (`multiplicity_eq_chainMultiplicity`). A coefficient other than one
comes from a number in the chain (`exists_isCoefficient`).
-/

namespace SymbolicCalculus.Expr

/-- A factor that is no number and that a chain does not take apart: no product, no negation and no
power with a positive integer exponent. -/
def IsBase : Expr Rat → Prop
  | const _ | product _ _ | neg _ => False
  | power _ (const k) => Scalar.isPositiveWhole k = false
  | _ => True

instance : DecidablePred IsBase
  | const _ | product _ _ | neg _ => isFalse id
  | power _ (const k) => inferInstanceAs (Decidable (Scalar.isPositiveWhole k = false))
  | power _ (param _) | power _ (binary _ _ _) | power _ (neg _) | power _ (call₀ _)
  | power _ (call₁ _ _) | power _ (call₂ _ _ _) => isTrue trivial
  | sum _ _ | difference _ _ | quotient _ _ => isTrue trivial
  | param _ | call₀ _ | call₁ _ _ | call₂ _ _ _ => isTrue trivial

/-- How often a base divides an expression, as a natural number. -/
def multiplicity (base e : Expr Rat) : Nat :=
  if e = base then 1
  else
    match e with
    | product a b => multiplicity base a + multiplicity base b
    | sum a b | difference a b => min (multiplicity base a) (multiplicity base b)
    | quotient a _ => multiplicity base a
    | power a (const k) =>
      if Scalar.isPositiveWhole k then k.num.toNat * multiplicity base a else 0
    | neg a => multiplicity base a
    | _ => 0

theorem min_natCast (m n : Nat) : Scalar.toMin.min (m : Rat) (n : Rat) = (min m n : Nat) := by
  rw [Exact.min_eq]
  split
  · next hle => rw [Nat.min_eq_left (by exact_mod_cast hle)]
  · next hle =>
    have hlt : n < m := by
      have : ¬ m ≤ n := by exact_mod_cast hle
      omega
    rw [Nat.min_eq_right (Nat.le_of_lt hlt)]

@[simp] theorem multiplicity_self (e : Expr Rat) : multiplicity e e = 1 := by
  rw [multiplicity.eq_def, if_pos rfl]

theorem occurrences_eq (base e : Expr Rat) : occurrences base e = multiplicity base e := by
  fun_induction occurrences base e with
  | case1 e h =>
    rw [eq_of_beq h, multiplicity_self]
  | case2 a b h iha ihb =>
    rw [multiplicity, if_neg (by simpa using h), iha, ihb]
    exact (Nat.cast_add _ _).symm
  | case3 a b h iha ihb | case4 a b h iha ihb =>
    rw [multiplicity, if_neg (by simpa using h), iha, ihb]
    exact min_natCast _ _
  | case5 a b h iha => rw [multiplicity, if_neg (by simpa using h), iha]
  | case6 a k hk h iha =>
    rw [multiplicity, if_neg (by simpa using h), if_pos hk, iha]
    obtain ⟨n, -, rfl⟩ := Exact.isPositiveWhole_iff.mp hk
    exact (Nat.cast_mul n _).symm
  | case7 a k hk h =>
    rw [multiplicity, if_neg (by simpa using h), if_neg hk]
  | case8 a h iha => rw [multiplicity, if_neg (by simpa using h), iha]
  | case9 e h h₁ h₂ h₃ h₄ h₅ h₆ =>
    rw [multiplicity, if_neg (by simpa using h)] <;> assumption

/-! ## How often a factor stands in the parts -/

section parts

variable {base a b : Expr Rat}

theorem multiplicity_product (hbase : base.IsBase) :
    multiplicity base (product a b) = multiplicity base a + multiplicity base b := by
  refine if_neg ?_
  rintro rfl
  exact hbase

theorem multiplicity_neg (hbase : base.IsBase) :
    multiplicity base (neg a) = multiplicity base a := by
  refine if_neg ?_
  rintro rfl
  exact hbase

theorem multiplicity_const (hbase : base.IsBase) (k : Rat) : multiplicity base (const k) = 0 := by
  refine if_neg ?_
  rintro rfl
  exact hbase

theorem multiplicity_power (hbase : base.IsBase) {n : Nat} (hn : 0 < n) :
    multiplicity base (power a (const n)) = n * multiplicity base a := by
  have hwhole : Scalar.isPositiveWhole (n : Rat) = true :=
    Exact.isPositiveWhole_iff.mpr ⟨n, hn, rfl⟩
  have hne : power a (const n) ≠ base := by
    rintro rfl
    exact Bool.false_ne_true (Eq.trans (Eq.symm hbase) hwhole)
  refine (if_neg hne).trans ((if_pos hwhole).trans ?_)
  rw [Rat.num_natCast, Int.toNat_natCast]

theorem multiplicity_sum (h : sum a b ≠ base) :
    multiplicity base (sum a b) = min (multiplicity base a) (multiplicity base b) :=
  if_neg h

theorem multiplicity_difference (h : difference a b ≠ base) :
    multiplicity base (difference a b) = min (multiplicity base a) (multiplicity base b) :=
  if_neg h

theorem multiplicity_quotient (h : quotient a b ≠ base) :
    multiplicity base (quotient a b) = multiplicity base a :=
  if_neg h

/-- Only a larger expression contains another one. -/
theorem eq_or_size_lt_of_multiplicity {e : Expr Rat} (h : 0 < multiplicity base e) :
    e = base ∨ base.size < e.size := by
  fun_induction multiplicity base e with
  | case1 => exact .inl rfl
  | case2 a b _ iha ihb =>
    right
    rw [size]
    rcases Nat.eq_zero_or_pos (multiplicity base a) with ha | ha
    · rcases ihb (by omega) with rfl | hb <;> omega
    · rcases iha ha with rfl | ha <;> omega
  | case3 a b _ iha ihb | case4 a b _ iha ihb =>
    right
    rw [size]
    rcases iha (by omega) with rfl | ha <;> omega
  | case5 a b _ iha =>
    right
    rw [size]
    rcases iha h with rfl | ha <;> omega
  | case6 a k _ _ iha =>
    right
    rw [size]
    rcases iha (Nat.pos_of_mul_pos_left h) with rfl | ha <;> omega
  | case7 => contradiction
  | case8 a _ iha =>
    right
    rw [size]
    rcases iha h with rfl | ha <;> omega
  | case9 => contradiction

/-- A node is not contained in its first operand. -/
theorem multiplicity_left_eq_zero (op : Operator) (a b : Expr Rat) :
    multiplicity (binary op a b) a = 0 := by
  by_contra hne
  have hsize : (binary op a b).size ≤ a.size := by
    rcases eq_or_size_lt_of_multiplicity (Nat.pos_of_ne_zero hne) with heq | hlt
    · rw [← heq]
    · exact Nat.le_of_lt hlt
  rw [size] at hsize
  omega

/-- What both terms contain, the sum contains, even if it is the base itself. -/
theorem min_multiplicity_le_sum (base a b : Expr Rat) :
    min (multiplicity base a) (multiplicity base b) ≤ multiplicity base (sum a b) := by
  by_cases heq : sum a b = base
  · rw [← heq, multiplicity_left_eq_zero, Nat.zero_min]
    exact Nat.zero_le _
  · rw [multiplicity_sum heq]

theorem min_multiplicity_le_difference (base a b : Expr Rat) :
    min (multiplicity base a) (multiplicity base b) ≤ multiplicity base (difference a b) := by
  by_cases heq : difference a b = base
  · rw [← heq, multiplicity_left_eq_zero, Nat.zero_min]
    exact Nat.zero_le _
  · rw [multiplicity_difference heq]

theorem multiplicity_le_quotient (base a b : Expr Rat) :
    multiplicity base a ≤ multiplicity base (quotient a b) := by
  by_cases heq : quotient a b = base
  · rw [← heq, multiplicity_left_eq_zero]
    exact Nat.zero_le _
  · rw [multiplicity_quotient heq]

/-- Induction over the parts that a base is looked for in. The two terms of a sum and of a
difference are treated alike. -/
theorem induction_multiplicity {P : Expr Rat → Prop}
    (product : ∀ a b, P a → P b → P (product a b))
    (neg : ∀ a, P a → P (neg a))
    (power : ∀ (a : Expr Rat) (n : Nat), 0 < n → P a → P (power a (const n)))
    (terms : ∀ e a b : Expr Rat, a.size + 2 ≤ e.size →
      (∀ base, e ≠ base →
        multiplicity base e = min (multiplicity base a) (multiplicity base b)) →
      (∀ base, min (multiplicity base a) (multiplicity base b) ≤ multiplicity base e) →
      P a → P b → P e)
    (quotient : ∀ a b, P a → P (quotient a b))
    (single : ∀ e : Expr Rat, (∀ base, e ≠ base → multiplicity base e = 0) → P e)
    (e : Expr Rat) : P e := by
  have hsize (op : Operator) (a b : Expr Rat) : a.size + 2 ≤ (binary op a b).size := by
    have hpos := size_pos b
    rw [size]
    omega
  induction e with
  | binary op a b iha ihb =>
    cases op with
    | plus =>
      exact terms _ a b (hsize _ a b) (fun base hne => multiplicity_sum hne)
        (fun base => min_multiplicity_le_sum base a b) iha ihb
    | minus =>
      exact terms _ a b (hsize _ a b) (fun base hne => multiplicity_difference hne)
        (fun base => min_multiplicity_le_difference base a b) iha ihb
    | times => exact product a b iha ihb
    | divide => exact quotient a b iha
    | power =>
      by_cases hwhole : ∃ n : Nat, 0 < n ∧ b = const (n : Rat)
      · obtain ⟨n, hn, rfl⟩ := hwhole
        exact power a n hn iha
      · refine single _ fun base hne => ?_
        rw [multiplicity.eq_def, if_neg hne]
        cases b with
        | const k =>
          refine if_neg fun hk => hwhole ?_
          obtain ⟨n, hn, rfl⟩ := Exact.isPositiveWhole_iff.mp hk
          exact ⟨n, hn, rfl⟩
        | _ => rfl
  | neg a iha => exact neg a iha
  | param p => exact single _ fun base hne => by rw [multiplicity.eq_def, if_neg hne]
  | const k => exact single _ fun base hne => by rw [multiplicity.eq_def, if_neg hne]
  | call₀ f => exact single _ fun base hne => by rw [multiplicity.eq_def, if_neg hne]
  | call₁ f x => exact single _ fun base hne => by rw [multiplicity.eq_def, if_neg hne]
  | call₂ f x y => exact single _ fun base hne => by rw [multiplicity.eq_def, if_neg hne]

end parts

/-! ## Chains -/

theorem appendFactors_of_isBase {e : Expr Rat} (h : e.IsBase) (exponent : Rat)
    (factors : List (Factor Rat)) :
    e.appendFactors exponent factors = Factor.insert e exponent factors := by
  cases e with
  | binary op a b =>
    cases op with
    | times => contradiction
    | power =>
      cases b with
      | const k =>
        have hk : Scalar.isPositiveWhole k = false := h
        rw [appendFactors, if_neg (by simp [hk])]
      | _ => rw [appendFactors] <;> simp
    | _ => rw [appendFactors] <;> simp
  | neg a => contradiction
  | _ => rw [appendFactors] <;> simp

theorem chain_of_isBase {e : Expr Rat} (h : e.IsBase) : e.chain = [⟨e, 1⟩] :=
  appendFactors_of_isBase h 1 []

/-- A base in a chain is a number, or it is not taken apart any further. -/
def IsChainBase (base : Expr Rat) : Prop :=
  base.constant? = none → base.IsBase

theorem isChainBase_of_mem_appendFactors {exponent : Rat} {factors : List (Factor Rat)}
    {e : Expr Rat} (h : ∀ factor ∈ factors, factor.base.IsChainBase) :
    ∀ factor ∈ e.appendFactors exponent factors, factor.base.IsChainBase := by
  fun_induction appendFactors exponent factors e with
  | case1 exponent factors a b iha ihb => exact ihb (iha h)
  | case2 exponent factors a ih =>
    refine ih ((Factor.forall_mem_insert (P := IsChainBase)).mpr ⟨fun hconst => ?_, h⟩)
    exact absurd hconst (Option.some_ne_none _)
  | case3 exponent factors a k hk ih => exact ih h
  | case4 exponent factors a k hk =>
    refine (Factor.forall_mem_insert (P := IsChainBase)).mpr ⟨fun _ => ?_, h⟩
    simpa [IsBase] using hk
  | case5 exponent factors e hproduct hneg hpower =>
    refine (Factor.forall_mem_insert (P := IsChainBase)).mpr ⟨fun hconst => ?_, h⟩
    cases e with
    | const k => contradiction
    | neg a => exact hneg a rfl
    | binary op a b =>
      cases op with
      | times => exact hproduct a b rfl
      | power =>
        cases b with
        | const k => exact (hpower a k rfl).elim
        | _ => trivial
      | _ => trivial
    | _ => trivial

theorem isBase_of_mem_chain {e : Expr Rat} {factor : Factor Rat} (h : factor ∈ e.chain)
    (hconst : factor.base.constant? = none) : factor.base.IsBase :=
  isChainBase_of_mem_appendFactors (List.forall_mem_nil _) factor h hconst

/-! ## The bases of a chain -/

section bases

variable {base e : Expr Rat} {factors : List (Factor Rat)} {n : Nat}

theorem mem_map_base_insert {exponent : Rat} {other : Expr Rat} :
    other ∈ (Factor.insert base exponent factors).map Factor.base ↔
      other = base ∨ other ∈ factors.map Factor.base := by
  induction factors with
  | nil => simp [Factor.insert]
  | cons head rest ih =>
    rw [Factor.insert]
    split
    · next heq =>
      simp [eq_of_beq heq]
    · rw [List.map_cons, List.mem_cons, ih, List.map_cons, List.mem_cons]
      exact or_left_comm

theorem nodup_insert {exponent : Rat} (h : (factors.map Factor.base).Nodup) :
    ((Factor.insert base exponent factors).map Factor.base).Nodup := by
  induction factors with
  | nil => simp [Factor.insert]
  | cons head rest ih =>
    rw [List.map_cons, List.nodup_cons] at h
    rw [Factor.insert]
    split
    · rwa [List.map_cons, List.nodup_cons]
    · next hne =>
      rw [List.map_cons, List.nodup_cons, mem_map_base_insert]
      refine ⟨?_, ih h.2⟩
      rintro (heq | hmem)
      · exact hne (by simp [heq])
      · exact h.1 hmem

theorem nodup_appendFactors {exponent : Rat} (h : (factors.map Factor.base).Nodup) :
    ((e.appendFactors exponent factors).map Factor.base).Nodup := by
  fun_induction appendFactors exponent factors e with
  | case1 exponent factors a b iha ihb => exact ihb (iha h)
  | case2 exponent factors a ih => exact ih (nodup_insert h)
  | case3 exponent factors a k hk ih => exact ih h
  | case4 exponent factors a k hk => exact nodup_insert h
  | case5 exponent factors e _ _ _ => exact nodup_insert h

/-- No two factors of a chain have the same base. -/
theorem nodup_chain (e : Expr Rat) : (e.chain.map Factor.base).Nodup :=
  nodup_appendFactors List.nodup_nil

end bases

/-! ## Sums over a chain -/

/-- How often the factors of a chain contain a base together. -/
def chainMultiplicity (base : Expr Rat) (factors : List (Factor Rat)) : Nat :=
  (factors.map fun factor => factor.exponent.num.toNat * multiplicity base factor.base).sum

section chainMultiplicity

variable {base other e : Expr Rat} {factors : List (Factor Rat)} {n : Nat}

theorem chainMultiplicity_insert (h : HasWholeExponents factors) :
    chainMultiplicity base (Factor.insert other n factors) =
      chainMultiplicity base factors + n * multiplicity base other := by
  induction factors with
  | nil => simp [Factor.insert, chainMultiplicity]
  | cons head rest ih =>
    obtain ⟨⟨m, -, hexp⟩, hrest⟩ := List.forall_mem_cons.mp h
    have hrest := ih hrest
    rw [Factor.insert]
    unfold chainMultiplicity at hrest ⊢
    split
    · next heq =>
      have hsum : (m : Rat) + (n : Rat) = ((m + n : Nat) : Rat) := (Nat.cast_add m n).symm
      simp only [List.map_cons, List.sum_cons, hexp, hsum, Rat.num_natCast, Int.toNat_natCast,
        eq_of_beq heq, Nat.add_mul]
      omega
    · simp only [List.map_cons, List.sum_cons, hrest]
      omega

theorem chainMultiplicity_appendFactors (hbase : base.IsBase) (h : HasWholeExponents factors)
    (hn : 0 < n) :
    chainMultiplicity base (e.appendFactors n factors) =
      chainMultiplicity base factors + n * multiplicity base e := by
  generalize hexponent : (n : Rat) = exponent
  fun_induction Expr.appendFactors exponent factors e generalizing n with
  | case1 exponent factors a b iha ihb =>
    have ha : HasWholeExponents (a.appendFactors exponent factors) := by
      rw [← hexponent]
      exact hasWholeExponents_appendFactors h hn
    rw [ihb ha hn hexponent, iha h hn hexponent, multiplicity_product hbase, Nat.mul_add,
      Nat.add_assoc]
  | case2 exponent factors a ih =>
    subst hexponent
    rw [ih (h.insert hn) hn rfl, chainMultiplicity_insert h, multiplicity_const hbase,
      multiplicity_neg hbase, Nat.mul_zero, Nat.add_zero]
  | case3 exponent factors a k hk ih =>
    subst hexponent
    obtain ⟨m, hm, rfl⟩ := Exact.isPositiveWhole_iff.mp hk
    rw [ih h (Nat.mul_pos hn hm) (Nat.cast_mul n m), multiplicity_power hbase hm, Nat.mul_assoc]
  | case4 exponent factors a k hk =>
    subst hexponent
    exact chainMultiplicity_insert h
  | case5 exponent factors e _ _ _ =>
    subst hexponent
    exact chainMultiplicity_insert h

/-- An expression contains a base as often as the factors of its chain do together. -/
theorem multiplicity_eq_chainMultiplicity (hbase : base.IsBase) (e : Expr Rat) :
    multiplicity base e = chainMultiplicity base e.chain := by
  have h := chainMultiplicity_appendFactors (e := e) hbase (List.forall_mem_nil _) Nat.one_pos
  rw [Nat.cast_one, Nat.one_mul] at h
  exact (h.trans (Nat.zero_add _)).symm

/-- An expression contains each base at least as often as its chain says. -/
theorem exponent_le_multiplicity {factor : Factor Rat} (h : factor ∈ e.chain)
    (hbase : factor.base.IsBase) (hexp : factor.exponent = n) :
    n ≤ multiplicity factor.base e := by
  rw [multiplicity_eq_chainMultiplicity hbase]
  refine List.single_le_sum (fun _ _ => Nat.zero_le _) _ (List.mem_map.mpr ⟨factor, h, ?_⟩)
  rw [hexp, multiplicity_self, Nat.mul_one, Rat.num_natCast, Int.toNat_natCast]

end chainMultiplicity

/-! ## Coefficients -/

/-- What a factor of a chain contributes to the coefficient. -/
def factorMagnitude (factor : Factor Rat) : Rat :=
  match factor.base with
  | const k => Arithmetic.power (Scalar.magnitude k) factor.exponent
  | _ => 1

/-- A number in a chain that is more than a sign. -/
def IsCoefficient (factor : Factor Rat) : Prop :=
  ∃ k, factor.base = const k ∧ Scalar.magnitude k ≠ 1

instance : DecidablePred IsCoefficient := fun factor =>
  decidable_of_iff (∃ k ∈ factor.base.constant?, Scalar.magnitude k ≠ 1) <| by
    obtain ⟨base, exponent⟩ := factor
    cases base <;> simp [IsCoefficient, constant?]

/-- The coefficient is the product of what the factors contribute. -/
theorem coefficient_eq_prod (e : Expr Rat) :
    e.coefficient = (e.chain.map factorMagnitude).prod := by
  unfold coefficient
  change List.foldl _ (1 : Rat) _ = _
  rw [← one_mul (e.chain.map factorMagnitude).prod]
  generalize (1 : Rat) = x
  induction e.chain generalizing x with
  | nil => exact (mul_one x).symm
  | cons head rest ih =>
    obtain ⟨base, exponent⟩ := head
    rw [List.foldl_cons, ih, List.map_cons, List.prod_cons, ← mul_assoc]
    congr 1
    cases base with
    | const k => rfl
    | _ => exact (mul_one x).symm

/-- Signs and factors that are no numbers contribute nothing. -/
theorem factorMagnitude_eq_one {factor : Factor Rat} {n : Nat} (hexp : factor.exponent = n)
    (h : ¬ IsCoefficient factor) : factorMagnitude factor = 1 := by
  obtain ⟨base, exponent⟩ := factor
  cases base with
  | const k =>
    have hone : Scalar.magnitude k = 1 := by
      by_contra hne
      exact h ⟨k, rfl, hne⟩
    obtain rfl : exponent = n := hexp
    show Arithmetic.power (Scalar.magnitude k) (n : Rat) = 1
    rw [hone, Exact.power_natCast, one_pow]
  | _ => rfl

theorem exists_isCoefficient {e : Expr Rat} (h : e.coefficient ≠ 1) :
    ∃ factor ∈ e.chain, IsCoefficient factor := by
  by_contra hnone
  push Not at hnone
  refine h ?_
  rw [coefficient_eq_prod]
  refine List.prod_eq_one fun x hx => ?_
  obtain ⟨factor, hmem, rfl⟩ := List.mem_map.mp hx
  obtain ⟨n, -, hexp⟩ := hasWholeExponents_chain e factor hmem
  exact factorMagnitude_eq_one hexp (hnone factor hmem)

end SymbolicCalculus.Expr
