import SymbolicCalculus.Proofs.Multiplicity

/-!
# Chains are canonical and faithful

A chain takes an expression apart as far as products, signs and whole powers go, and no two of its
factors have the same base (`Expr.chain_isCanonical`). Multiplied together again, its factors have
the value of the expression, and they have none where the expression has none
(`Expr.productValue?_chain`).
-/

namespace SymbolicCalculus

open Exact (meaning)

/-- The product of the factors, `base ^ exponent` each, if all of them have values. -/
def Factor.productValue? {F : Type} [Field F] (I : Interpretation Rat F) :
    List (Factor Rat) → Option F
  | [] => some 1
  | factor :: rest => do
    let x ← (Expr.power factor.base (.const factor.exponent)).value? I
    let y ← productValue? I rest
    return x * y

/-- A chain with nothing left to take apart or to merge: every exponent is a positive integer, no
two bases are equal, and no base is a product, a negation or a power with a positive integer
exponent. -/
structure IsCanonicalChain (factors : List (Factor Rat)) : Prop where
  exponents : ∀ factor ∈ factors, ∃ n : Nat, 0 < n ∧ factor.exponent = n
  distinct : factors.Pairwise fun factor other => (factor.base == other.base) = false
  no_product : ∀ factor ∈ factors, ∀ a b, factor.base ≠ .product a b
  no_neg : ∀ factor ∈ factors, ∀ a, factor.base ≠ .neg a
  no_power : ∀ factor ∈ factors, ∀ (a : Expr Rat) (n : Nat), 0 < n →
    factor.base ≠ .power a (.const n)

/-! ## The product of a chain -/

section product

variable {F : Type} [Field F] {I : Interpretation Rat F} {factors : List (Factor Rat)} {v : F}

theorem ChainValue.productValue?_eq [I.IsFaithful] (h : ChainValue I factors v) :
    Factor.productValue? I factors = some v := by
  induction h with
  | nil => rfl
  | cons hbase hexp hpos _ ih =>
    rw [Factor.productValue?, hexp, Expr.value?_power_nat hbase hpos, ih]
    rfl

/-- Where the product has a value, each base has one. -/
theorem Expr.hasValue_of_productValue? (h : Factor.productValue? I factors = some v) :
    ∀ factor ∈ factors, factor.base.HasValue I := by
  induction factors generalizing v with
  | nil => exact List.forall_mem_nil _
  | cons head rest ih =>
    obtain ⟨x, hx, h⟩ := Option.bind_eq_some_iff.mp h
    obtain ⟨y, hy, -⟩ := Option.bind_eq_some_iff.mp h
    obtain ⟨z, _, hz, -, -⟩ := Expr.value?_binary_eq_some.mp hx
    exact List.forall_mem_cons.mpr ⟨⟨z, hz⟩, ih hy⟩

end product

namespace Expr

/-- A chain has the value of the expression, and none where the expression has none. -/
theorem productValue?_chain (param : String → Option Rat)
    (call : Builtin → List Rat → Option Rat) (e : Expr Rat) :
    Factor.productValue? (meaning param call) e.chain = e.value? (meaning param call) := by
  cases hv : e.value? (meaning param call) with
  | some v => exact (chain_value hv).productValue?_eq
  | none =>
    refine Option.eq_none_iff_forall_ne_some.mpr fun v hproduct => ?_
    obtain ⟨w, hw⟩ := hasValue_of_chain (hasValue_of_productValue? hproduct)
    rw [hv] at hw
    contradiction

/-! ## The factors of a chain -/

theorem IsChainBase.ne_product {base : Expr Rat} (h : base.IsChainBase) (a b : Expr Rat) :
    base ≠ product a b := by
  rintro rfl
  exact h rfl

theorem IsChainBase.ne_neg {base : Expr Rat} (h : base.IsChainBase) (a : Expr Rat) :
    base ≠ neg a := by
  rintro rfl
  exact h rfl

theorem IsChainBase.ne_power {base : Expr Rat} (h : base.IsChainBase) (a : Expr Rat) {n : Nat}
    (hn : 0 < n) : base ≠ power a (const n) := by
  rintro rfl
  have hwhole : Scalar.isPositiveWhole (n : Rat) = true :=
    Exact.isPositiveWhole_iff.mpr ⟨n, hn, rfl⟩
  exact Bool.false_ne_true (Eq.trans (Eq.symm (h rfl)) hwhole)

theorem isCanonicalChain_chain (e : Expr Rat) : IsCanonicalChain e.chain where
  exponents := hasWholeExponents_chain e
  distinct := by
    have hnodup := List.pairwise_map.mp (nodup_chain e)
    exact hnodup.imp fun hne => beq_eq_false_iff_ne.mpr hne
  no_product factor hmem := IsChainBase.ne_product (isBase_of_mem_chain hmem)
  no_neg factor hmem := IsChainBase.ne_neg (isBase_of_mem_chain hmem)
  no_power factor hmem a _ hn := IsChainBase.ne_power (isBase_of_mem_chain hmem) a hn

/-- **Chains are canonical and faithful.** The chain of an expression has positive integer
exponents, no two equal bases, and no base that could be taken apart further. For any values of the
parameters and any meaning of the builtin functions, its factors multiply up to the value of the
expression, and have no product where the expression has no value. -/
theorem chain_isCanonical (param : String → Option Rat) (call : Builtin → List Rat → Option Rat)
    (e : Expr Rat) :
    IsCanonicalChain e.chain ∧
      Factor.productValue? (.arithmetic param call) e.chain = e.value? (.arithmetic param call) :=
  ⟨isCanonicalChain_chain e, productValue?_chain param call e⟩

/-- The signs in `(-(2*x))^3 * (-x)` are one factor, and `x` is another one. -/
example :
    let x : Expr Rat := .param "x"
    (product (power (neg (product (nat 2) x)) (nat 3)) (neg x)).chain.map
        (fun factor => (factor.base, factor.exponent)) =
      [(const (-1), 4), (nat 2, 3), (x, 4)] := by
  decide +kernel

end Expr

end SymbolicCalculus
