import Mathlib.Algebra.BigOperators.Ring.List
import Mathlib.Algebra.Order.BigOperators.Group.List
import SymbolicCalculus.Proofs.Multiplicity

/-!
# The size of a common factor

What two expressions share by their chains has at most as many nodes as the two together
(`size_sharedByChains?_le`), although it may be larger than each of them, since the power of a
product is spread over its factors. The bases and the coefficient are paid for by the expression
whose chain they come from (`chainFootprint_filter_le`), and the exponents by the other one, which
contains the bases more than once (`contained_two_le`).
-/

namespace SymbolicCalculus.Expr

/-! ## How many bases an expression contains -/

section contained

/-- How often an expression contains some bases, where each base is counted up to so many times. -/
def contained (limit : Nat) (bases : List (Expr Rat)) (e : Expr Rat) : Nat :=
  (bases.map fun base => min limit (multiplicity base e)).sum

variable {bases : List (Expr Rat)} {e a b : Expr Rat}

theorem sum_map_ite_eq_count (bases : List (Expr Rat)) (e : Expr Rat) :
    (bases.map fun base => if e = base then 1 else 0).sum = bases.count e := by
  induction bases with
  | nil => rfl
  | cons head rest ih =>
    rw [List.map_cons, List.sum_cons, ih, List.count_cons, Nat.add_comm]
    by_cases heq : e = head
    · simp [heq]
    · simp [heq, Ne.symm heq]

/-- An expression is itself only one of several bases. -/
theorem contained_part_le (limit : Nat) (hnodup : bases.Nodup)
    (h : ∀ base, e ≠ base → multiplicity base e ≤ multiplicity base a) :
    contained limit bases e ≤ contained limit bases a + 1 := by
  have hcount : bases.count e ≤ 1 := List.nodup_iff_count.mp hnodup e
  have hsum : contained limit bases e ≤ (bases.map fun base =>
      (if e = base then 1 else 0) + min limit (multiplicity base a)).sum := by
    refine List.sum_le_sum fun base _ => ?_
    by_cases heq : e = base
    · rw [heq, multiplicity_self, if_pos rfl]
      omega
    · have hle := h base heq
      rw [if_neg heq]
      omega
  rw [List.sum_map_add, sum_map_ite_eq_count] at hsum
  change _ ≤ bases.count e + contained limit bases a at hsum
  omega

theorem contained_single_le (limit : Nat) (hnodup : bases.Nodup)
    (h : ∀ base, e ≠ base → multiplicity base e = 0) : contained limit bases e ≤ 1 := by
  have hcount : bases.count e ≤ 1 := List.nodup_iff_count.mp hnodup e
  have hsum : contained limit bases e ≤ (bases.map fun base => if e = base then 1 else 0).sum := by
    refine List.sum_le_sum fun base _ => ?_
    by_cases heq : e = base
    · rw [heq, multiplicity_self, if_pos rfl]
      exact Nat.min_le_right _ _
    · rw [h base heq, Nat.min_zero]
      exact Nat.zero_le _
  rw [sum_map_ite_eq_count] at hsum
  omega

variable (hbases : ∀ base ∈ bases, base.IsBase)

include hbases

theorem contained_product_le (limit : Nat) :
    contained limit bases (product a b) ≤ contained limit bases a + contained limit bases b := by
  rw [contained, contained, contained, ← List.sum_map_add]
  refine List.sum_le_sum fun base hmem => ?_
  rw [multiplicity_product (hbases base hmem)]
  omega

theorem contained_neg_le (limit : Nat) :
    contained limit bases (neg a) ≤ contained limit bases a := by
  refine List.sum_le_sum fun base hmem => ?_
  rw [multiplicity_neg (hbases base hmem)]

/-- A power contains what its base contains, and more than once. -/
theorem contained_power_le (limit : Nat) {n : Nat} (hn : 0 < n) :
    contained limit bases (power a (const n)) ≤ limit * contained 1 bases a := by
  rw [contained, contained, ← List.sum_map_mul_left]
  refine List.sum_le_sum fun base hmem => ?_
  rw [multiplicity_power (hbases base hmem) hn]
  by_cases hzero : multiplicity base a = 0
  · simp [hzero]
  · rw [Nat.min_eq_left (Nat.pos_of_ne_zero hzero), Nat.mul_one]
    exact Nat.min_le_left _ _

/-- The different bases that an expression contains take half of its nodes. -/
theorem contained_one_le (hnodup : bases.Nodup) (e : Expr Rat) :
    2 * contained 1 bases e ≤ e.size + 1 := by
  induction e using induction_multiplicity with
  | product a b iha ihb =>
    have hle := contained_product_le (a := a) (b := b) hbases 1
    rw [size]
    omega
  | neg a iha =>
    have hle := contained_neg_le (a := a) hbases 1
    rw [size]
    omega
  | power a n hn iha =>
    have hle := contained_power_le (a := a) hbases 1 hn
    rw [size]
    omega
  | terms e a b hsize heq _ iha ihb =>
    have hle := contained_part_le 1 hnodup fun base hne =>
      (heq base hne).trans_le (Nat.min_le_left _ _)
    omega
  | quotient a b iha =>
    have hle := contained_part_le 1 (e := quotient a b) hnodup fun base hne =>
      (multiplicity_quotient hne).le
    have hpos := size_pos b
    rw [size]
    omega
  | single e hzero =>
    have hle := contained_single_le 1 hnodup hzero
    have hpos := size_pos e
    omega

/-- The bases that an expression contains, counted up to twice, take no more than its nodes. -/
theorem contained_two_le (hnodup : bases.Nodup) (e : Expr Rat) :
    contained 2 bases e ≤ e.size := by
  induction e using induction_multiplicity with
  | product a b iha ihb =>
    have hle := contained_product_le (a := a) (b := b) hbases 2
    rw [size]
    omega
  | neg a iha =>
    have hle := contained_neg_le (a := a) hbases 2
    rw [size]
    omega
  | power a n hn iha =>
    have hle := contained_power_le (a := a) hbases 2 hn
    have hone := contained_one_le hbases hnodup a
    rw [size, size]
    omega
  | terms e a b hsize heq _ iha ihb =>
    have hle := contained_part_le 2 hnodup fun base hne =>
      (heq base hne).trans_le (Nat.min_le_left _ _)
    omega
  | quotient a b iha =>
    have hle := contained_part_le 2 (e := quotient a b) hnodup fun base hne =>
      (multiplicity_quotient hne).le
    have hpos := size_pos b
    rw [size]
    omega
  | single e hzero =>
    have hle := contained_single_le 2 hnodup hzero
    have hpos := size_pos e
    omega

end contained

/-! ## How many nodes a chain has -/

/-- The nodes of a base and the one that joins it to the next. A number counts only if it makes a
difference to the magnitude. -/
def footprint : Expr Rat → Nat
  | const k => if Scalar.magnitude k = 1 then 0 else 2
  | base => base.size + 1

theorem footprint_le (base : Expr Rat) : base.footprint ≤ base.size + 1 := by
  unfold footprint
  split
  · split
    · exact Nat.zero_le _
    · exact le_rfl
  · exact le_rfl

theorem footprint_of_constant?_eq_none {base : Expr Rat} (h : base.constant? = none) :
    base.footprint = base.size + 1 := by
  cases base with
  | const k => contradiction
  | _ => rfl

theorem footprint_neg_one : (const (-Nat.cast 1) : Expr Rat).footprint = 0 := by
  decide

/-- The nodes of all factors together. -/
def chainFootprint (factors : List (Factor Rat)) : Nat :=
  (factors.map fun factor => factor.base.footprint).sum

section chain

variable {base e : Expr Rat} {exponent : Rat} {factors : List (Factor Rat)}

theorem chainFootprint_insert_le (base : Expr Rat) (exponent : Rat) (factors : List (Factor Rat)) :
    chainFootprint (Factor.insert base exponent factors) ≤
      chainFootprint factors + base.footprint := by
  induction factors with
  | nil => simp [Factor.insert, chainFootprint]
  | cons head rest ih =>
    simp only [chainFootprint] at ih ⊢
    rw [Factor.insert]
    split
    · simp only [List.map_cons, List.sum_cons]
      omega
    · simp only [List.map_cons, List.sum_cons]
      omega

theorem chainFootprint_appendFactors_le (exponent : Rat) (factors : List (Factor Rat))
    (e : Expr Rat) :
    chainFootprint (e.appendFactors exponent factors) ≤ chainFootprint factors + e.size + 1 := by
  fun_induction appendFactors exponent factors e with
  | case1 exponent factors a b iha ihb =>
    rw [size]
    omega
  | case2 exponent factors a ih =>
    have hinsert := chainFootprint_insert_le (const (-Nat.cast 1)) exponent factors
    rw [footprint_neg_one] at hinsert
    rw [size]
    omega
  | case3 exponent factors a k hk ih =>
    rw [size]
    omega
  | case4 exponent factors a k hk =>
    exact (chainFootprint_insert_le _ _ _).trans (Nat.add_le_add_left (footprint_le _) _)
  | case5 exponent factors e _ _ _ =>
    exact (chainFootprint_insert_le _ _ _).trans (Nat.add_le_add_left (footprint_le _) _)

/-- A chain has no more nodes than the expression. -/
theorem chainFootprint_chain_le (e : Expr Rat) : chainFootprint e.chain ≤ e.size + 1 := by
  have hle := chainFootprint_appendFactors_le (Nat.cast 1) [] e
  rwa [show chainFootprint [] = 0 from rfl, Nat.zero_add] at hle

/-- The factors that are no numbers. -/
def properFactors (factors : List (Factor Rat)) : List (Factor Rat) :=
  factors.filter fun factor => factor.base.constant?.isNone

theorem properFactors_cons_of_isSome {factor : Factor Rat} (factors : List (Factor Rat))
    (h : factor.base.constant?.isSome = true) :
    properFactors (factor :: factors) = properFactors factors := by
  rw [properFactors, List.filter_cons, if_neg]
  · rfl
  · rw [Option.isNone_iff_eq_none]
    exact Option.isSome_iff_ne_none.mp h

theorem properFactors_cons {factor : Factor Rat} (factors : List (Factor Rat))
    (h : factor.base.constant? = none) :
    properFactors (factor :: factors) = factor :: properFactors factors := by
  rw [properFactors, List.filter_cons, if_pos (Option.isNone_iff_eq_none.mpr h)]
  rfl

theorem mem_properFactors {factor : Factor Rat} :
    factor ∈ properFactors factors ↔ factor ∈ factors ∧ factor.base.constant? = none := by
  rw [properFactors, List.mem_filter, Option.isNone_iff_eq_none]

theorem isBase_of_mem_properFactors {factor : Factor Rat}
    (h : factor ∈ properFactors e.chain) : factor.base.IsBase := by
  obtain ⟨hmem, hconst⟩ := mem_properFactors.mp h
  exact isBase_of_mem_chain hmem hconst

theorem isBase_of_mem_map_properFactors :
    ∀ base ∈ (properFactors e.chain).map Factor.base, base.IsBase :=
  List.forall_mem_map.mpr fun _ => isBase_of_mem_properFactors

theorem nodup_properFactors (e : Expr Rat) : ((properFactors e.chain).map Factor.base).Nodup :=
  (nodup_chain e).sublist (List.filter_sublist.map _)

/-- What the factors that are no numbers leave of the nodes is enough for a coefficient. -/
theorem chainFootprint_filter_le (e : Expr Rat) :
    chainFootprint (properFactors e.chain) + (if e.coefficient = 1 then 0 else 2) ≤ e.size + 1 := by
  have hchain := chainFootprint_chain_le e
  have hperm := List.filter_append_perm (fun factor => factor.base.constant?.isNone) e.chain
  have hsum := (hperm.map fun factor => factor.base.footprint).sum_eq
  rw [List.map_append, List.sum_append] at hsum
  unfold chainFootprint at hchain ⊢
  unfold properFactors
  split
  · omega
  · next hne =>
    obtain ⟨factor, hmem, k, hk, hmagnitude⟩ := exists_isCoefficient hne
    have htwo : factor.base.footprint = 2 := by
      rw [hk]
      exact if_neg hmagnitude
    have hle : 2 ≤ ((e.chain.filter fun factor => !factor.base.constant?.isNone).map
        fun factor => factor.base.footprint).sum := by
      rw [← htwo]
      refine List.single_le_sum (fun _ _ => Nat.zero_le _) _ (List.mem_map.mpr ⟨factor, ?_, rfl⟩)
      exact List.mem_filter.mpr ⟨hmem, by rw [hk]; rfl⟩
    omega

end chain

/-! ## How many nodes a common factor has -/

/-- The nodes of some factors as expressions, with those that join them. -/
def writtenSize (factors : List (Factor Rat)) : Nat :=
  (factors.map fun factor => factor.toExpr.size + 1).sum

theorem size_productOf? {factors : List (Factor Rat)} {g : Expr Rat}
    (h : productOf? factors = some g) : g.size + 1 = writtenSize factors := by
  cases factors with
  | nil => contradiction
  | cons head rest =>
    obtain rfl := Option.some.inj h
    clear h
    rw [writtenSize, List.map_cons, List.sum_cons]
    generalize head.toExpr = e
    induction rest generalizing e with
    | nil => simp
    | cons factor rest ih =>
      rw [List.foldl_cons, ih, size, List.map_cons, List.sum_cons]
      omega

theorem size_toExpr_le (base : Expr Rat) {n : Nat} (hn : 1 ≤ n) :
    (Factor.toExpr ⟨base, (n : Rat)⟩).size ≤ base.size + min 2 n := by
  unfold Factor.toExpr
  split
  · exact Nat.le_add_right _ _
  · next hne =>
    have htwo : 2 ≤ n := by
      by_contra hlt
      obtain rfl : n = 1 := by omega
      exact hne (beq_self_eq_true _)
    rw [Nat.min_eq_left htwo, size, size]

section shared

variable {a b g : Expr Rat} {factor : Factor Rat} {factors : List (Factor Rat)}

/-- How often a factor is contained in an expression, as a natural number. -/
theorem containment_eq {n : Nat} (hexp : factor.exponent = n) (e : Expr Rat) :
    containment factor e = (min (multiplicity factor.base e) n : Nat) := by
  unfold containment
  rw [occurrences_eq, hexp, min_natCast]
  dsimp only
  split
  · rfl
  · next hle =>
    have hzero : min (multiplicity factor.base e) n = 0 := by
      by_contra hne
      refine hle ?_
      exact_mod_cast Nat.pos_of_ne_zero hne
    rw [hzero]

theorem sharedFactor_of_constant? (h : factor.base.constant?.isSome = true) :
    sharedFactor a factor = [] :=
  if_pos h

theorem sharedFactor_eq {n : Nat} (hexp : factor.exponent = n)
    (hconst : factor.base.constant? = none) :
    sharedFactor a factor =
      if 1 ≤ min (multiplicity factor.base a) n then
        [⟨factor.base, (min (multiplicity factor.base a) n : Nat)⟩] else [] := by
  rw [sharedFactor, if_neg (by rw [hconst]; exact Bool.false_ne_true), containment_eq hexp]
  dsimp only
  refine if_congr ?_ rfl rfl
  exact Nat.cast_le (α := Rat) (m := 1)

/-- A shared factor is paid for by its base on one side and by its exponent on the other one. -/
theorem writtenSize_sharedFactor_le {n : Nat} (hexp : factor.exponent = n)
    (hconst : factor.base.constant? = none) :
    writtenSize (sharedFactor a factor) ≤
      factor.base.footprint + min 2 (multiplicity factor.base a) := by
  rw [sharedFactor_eq hexp hconst, footprint_of_constant?_eq_none hconst]
  split
  · next hpos =>
    have hle := size_toExpr_le factor.base hpos
    rw [writtenSize, List.map_singleton, List.sum_singleton]
    omega
  · exact Nat.zero_le _

theorem writtenSize_flatMap_sharedFactor_le (h : HasWholeExponents factors) :
    writtenSize (factors.flatMap (sharedFactor a)) ≤
      chainFootprint (properFactors factors) +
        contained 2 ((properFactors factors).map Factor.base) a := by
  induction factors with
  | nil => exact Nat.zero_le _
  | cons head rest ih =>
    obtain ⟨⟨n, -, hexp⟩, hrest⟩ := List.forall_mem_cons.mp h
    have hle := ih hrest
    rw [List.flatMap_cons]
    cases hconst : head.base.constant? with
    | some k =>
      have hsome : head.base.constant?.isSome = true := by rw [hconst]; rfl
      rw [sharedFactor_of_constant? hsome, List.nil_append, properFactors_cons_of_isSome _ hsome]
      exact hle
    | none =>
      have hhead := writtenSize_sharedFactor_le (a := a) hexp hconst
      rw [properFactors_cons _ hconst]
      unfold writtenSize chainFootprint contained at *
      simp only [List.map_append, List.sum_append, List.map_cons, List.sum_cons]
      omega

/-- Only one divides one. -/
theorem eq_one_of_gcd?_one {x k : Rat} (h : Scalar.gcd? x 1 = some k) : k = 1 := by
  obtain ⟨m, n, -, hn, rfl⟩ := gcd?_eq_some.mp h
  obtain rfl : 1 = n := Option.some.inj hn
  rw [Int.gcd_one_right]
  exact Nat.cast_one

theorem writtenSize_sharedCoefficient_le (a b : Expr Rat) :
    writtenSize (sharedCoefficient a b) ≤ if b.coefficient = 1 then 0 else 2 := by
  unfold sharedCoefficient
  split
  · next k hk =>
    split
    · next hone =>
      have hb : b.coefficient ≠ 1 := by
        intro heq
        rw [heq] at hk
        rw [eq_one_of_gcd?_one hk] at hone
        exact lt_irrefl (1 : Rat) hone
      rw [if_neg hb]
      exact le_rfl
    · exact Nat.zero_le _
  · exact Nat.zero_le _

/-- What two expressions share by one of their chains. -/
theorem size_sharedFactors?_le (h : sharedFactors? a b = some g) : g.size ≤ a.size + b.size := by
  have hwritten := size_productOf? h
  have hcoefficient := writtenSize_sharedCoefficient_le a b
  have hfactors := writtenSize_flatMap_sharedFactor_le (a := a) (hasWholeExponents_chain b)
  have hchain := chainFootprint_filter_le b
  have hcontained := contained_two_le isBase_of_mem_map_properFactors (nodup_properFactors b) a
  unfold writtenSize at *
  rw [List.map_append, List.sum_append] at hwritten
  omega

theorem size_sharedByChains?_le (h : sharedByChains? a b = some g) :
    g.size ≤ a.size + b.size := by
  rcases sharedByChains?_cases h with h | h
  · exact size_sharedFactors?_le h
  · rw [Nat.add_comm]
    exact size_sharedFactors?_le h

end shared

end SymbolicCalculus.Expr
