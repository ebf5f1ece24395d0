import SymbolicCalculus.Proofs.ChainValue
import SymbolicCalculus.Proofs.FactoringSteps

/-!
# A common factor has a value

Wherever two expressions have values, so has any common factor that is found for them
(`commonFactor?_hasValue`): it is built from constants, from one of the two, or from bases in their
chains with positive exponents. Whether it divides them is not claimed here, since division checks
that for itself.
-/

namespace SymbolicCalculus.Expr

variable {F : Type} {I : Interpretation Rat F}

/-- The expression has some value. -/
def HasValue (I : Interpretation Rat F) (e : Expr Rat) : Prop :=
  ∃ v, e.value? I = some v

/-- A factor whose power has a value: its base has one and its exponent is a positive integer. -/
def IsDefinedFactor (I : Interpretation Rat F) (factor : Factor Rat) : Prop :=
  factor.base.HasValue I ∧ ∃ n : Nat, 0 < n ∧ factor.exponent = n

/-! ## Parts of an expression that has a value -/

section parts

variable {op : Operator} {a b : Expr Rat}

theorem HasValue.left (h : (binary op a b).HasValue I) : a.HasValue I := by
  obtain ⟨v, hv⟩ := h
  obtain ⟨x, y, hx, -, -⟩ := value?_binary_eq_some.mp hv
  exact ⟨x, hx⟩

theorem HasValue.right (h : (binary op a b).HasValue I) : b.HasValue I := by
  obtain ⟨v, hv⟩ := h
  obtain ⟨x, y, -, hy, -⟩ := value?_binary_eq_some.mp hv
  exact ⟨y, hy⟩

theorem HasValue.inner (h : (neg a).HasValue I) : a.HasValue I := by
  obtain ⟨v, hv⟩ := h
  obtain ⟨x, hx, -⟩ := value?_neg_eq_some.mp hv
  exact ⟨x, hx⟩

/-- The terms of a sum or a difference. -/
theorem HasValue.terms {e l r : Expr Rat} (he : e.HasValue I)
    (h : e = sum l r ∨ e = difference l r) : l.HasValue I ∧ r.HasValue I := by
  rcases h with rfl | rfl
  · exact ⟨he.left, he.right⟩
  · exact ⟨he.left, he.right⟩

end parts

/-! ## Shared factors -/

/-- How often a factor is contained in an expression is a natural number. -/
theorem exists_containment_eq {factor : Factor Rat} {n : Nat} (hexp : factor.exponent = n)
    (e : Expr Rat) : ∃ m : Nat, containment factor e = m := by
  obtain ⟨k, hk⟩ := exists_occurrences_eq factor.base e
  have hmin : ∃ m : Nat, Scalar.toMin.min (occurrences factor.base e) factor.exponent = m := by
    rw [hk, hexp, Exact.min_eq]
    split
    · exact ⟨k, rfl⟩
    · exact ⟨n, rfl⟩
  obtain ⟨m, hm⟩ := hmin
  unfold containment
  rw [hm]
  dsimp only
  split
  · exact ⟨m, rfl⟩
  · exact ⟨0, rfl⟩

theorem isDefinedFactor_of_mem_sharedFactor {a : Expr Rat} {factor shared : Factor Rat}
    (hfactor : IsDefinedFactor I factor)
    (hmem : shared ∈ sharedFactor a factor) :
    IsDefinedFactor I shared := by
  obtain ⟨-, hone, rfl⟩ := eq_of_mem_sharedFactor hmem
  obtain ⟨hbase, n, -, hexp⟩ := hfactor
  obtain ⟨m, hm⟩ := exists_containment_eq hexp a
  rw [hm] at hone
  exact ⟨hbase, m, by exact_mod_cast hone, hm⟩

variable [Field F] [I.IsFaithful]

theorem IsDefinedFactor.toExpr_hasValue {factor : Factor Rat}
    (h : IsDefinedFactor I factor) :
    factor.toExpr.HasValue I := by
  obtain ⟨⟨x, hx⟩, n, hpos, hn⟩ := h
  exact ⟨x ^ n, toExpr_value hpos hx hn⟩

theorem product_hasValue {a b : Expr Rat} (ha : a.HasValue I)
    (hb : b.HasValue I) : (product a b).HasValue I := by
  obtain ⟨x, hx⟩ := ha
  obtain ⟨y, hy⟩ := hb
  exact ⟨x * y, value?_product_iff.mpr ⟨x, y, hx, hy, rfl⟩⟩

theorem isDefinedFactor_of_mem_chain {e : Expr Rat} (he : e.HasValue I)
    {factor : Factor Rat} (hmem : factor ∈ e.chain) :
    IsDefinedFactor I factor := by
  obtain ⟨v, hv⟩ := he
  obtain ⟨x, n, hx, hn, hexp⟩ := (chain_value hv).of_mem hmem
  exact ⟨⟨x, hx⟩, n, hn, hexp⟩

theorem isDefinedFactor_of_mem_sharedCoefficient {a b : Expr Rat} {factor : Factor Rat}
    (hmem : factor ∈ sharedCoefficient a b) : IsDefinedFactor I factor := by
  obtain ⟨k, -, -, rfl⟩ := eq_of_mem_sharedCoefficient hmem
  exact ⟨⟨k, value?_const k⟩, 1, Nat.one_pos, rfl⟩

theorem productOf?_hasValue {factors : List (Factor Rat)} {e : Expr Rat}
    (hfactors : ∀ factor ∈ factors, IsDefinedFactor I factor)
    (h : productOf? factors = some e) : e.HasValue I :=
  productOf?_induction product_hasValue (fun factor hmem => (hfactors factor hmem).toExpr_hasValue)
    h

theorem sharedFactors?_hasValue {a b g : Expr Rat} (hb : b.HasValue I)
    (h : sharedFactors? a b = some g) : g.HasValue I := by
  refine productOf?_hasValue (fun factor hmem => ?_) h
  rcases List.mem_append.mp hmem with hmem | hmem
  · exact isDefinedFactor_of_mem_sharedCoefficient hmem
  · obtain ⟨factor', hmem', hshared⟩ := List.mem_flatMap.mp hmem
    exact isDefinedFactor_of_mem_sharedFactor (isDefinedFactor_of_mem_chain hb hmem') hshared

theorem sharedByChains?_hasValue {a b g : Expr Rat} (ha : a.HasValue I)
    (hb : b.HasValue I) (h : sharedByChains? a b = some g) :
    g.HasValue I := by
  rcases sharedByChains?_cases h with h | h
  · exact sharedFactors?_hasValue hb h
  · exact sharedFactors?_hasValue ha h

/-! ## Common factors -/

theorem FoundFactor.hasValue {a b g : Expr Rat} (h : FoundFactor a b g) (ha : a.HasValue I)
    (hb : b.HasValue I) : g.HasValue I := by
  induction h with
  | leftZero => exact hb
  | rightZero => exact ha
  | same => exact ha
  | @numbers _ _ k => exact ⟨k, value?_const k⟩
  | chains h => exact sharedByChains?_hasValue ha hb h
  | bases _ ih => exact ih ha.left hb.left
  | leftBase _ ih => exact ih ha.left hb
  | rightBase _ ih => exact ih hb.left ha
  | leftTerms hterms _ _ ihl ihr =>
    obtain ⟨hl, hr⟩ := ha.terms hterms
    exact ihr (ihl hl hb) hr
  | rightTerms hterms _ _ ihl ihr =>
    obtain ⟨hl, hr⟩ := hb.terms hterms
    exact ihr (ihl hl ha) hr

/-- The common factor of two expressions has a value wherever both have one. -/
theorem commonFactor?_hasValue {a b g : Expr Rat} (ha : a.HasValue I)
    (hb : b.HasValue I) (h : commonFactor? a b = some g) :
    g.HasValue I :=
  (foundFactor_of_commonFactor? h).hasValue ha hb

end SymbolicCalculus.Expr
