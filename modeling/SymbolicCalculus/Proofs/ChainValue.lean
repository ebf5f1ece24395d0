import Mathlib.Data.List.Perm.Basic
import SymbolicCalculus.Factor.Chain
import SymbolicCalculus.Proofs.ExactValue

/-!
# What a chain is worth

`ChainValue I factors v` says that the factors multiply up to `v`. An expression with a value has a
chain that multiplies up to it (`Expr.chain_value`): nested products are flattened, the exponents of
nested powers multiply, and merging two factors of one base adds their exponents. The exponents stay
positive integers throughout, so that no power on the way is undefined.
-/

namespace SymbolicCalculus

variable {F : Type} [Field F]

/-- The factors of a chain multiply up to a value: every base has a value and every exponent is a
positive integer. -/
inductive ChainValue (I : Interpretation Rat F) : List (Factor Rat) → F → Prop where
  | nil : ChainValue I [] 1
  | cons {factor : Factor Rat} {rest : List (Factor Rat)} {x w : F} {n : Nat}
      (hbase : factor.base.value? I = some x) (hexp : factor.exponent = n) (hpos : 0 < n)
      (hrest : ChainValue I rest w) : ChainValue I (factor :: rest) (x ^ n * w)

variable {I : Interpretation Rat F}

namespace ChainValue

variable {factors factors' : List (Factor Rat)} {v w : F}

/-- Every factor of a chain with a value has a base with a value and a positive whole exponent. -/
theorem of_mem (h : ChainValue I factors v) {factor : Factor Rat} (hmem : factor ∈ factors) :
    ∃ x n, factor.base.value? I = some x ∧ 0 < n ∧ factor.exponent = (n : Nat) := by
  induction h with
  | nil => contradiction
  | @cons head rest x w n hbase hexp hpos hrest ih =>
    rcases List.mem_cons.mp hmem with rfl | hmem
    · exact ⟨x, n, hbase, hpos, hexp⟩
    · exact ih hmem

theorem perm (h : ChainValue I factors v) (hperm : factors.Perm factors') :
    ChainValue I factors' v := by
  induction hperm generalizing v with
  | nil => exact h
  | cons factor _ ih =>
    cases h with
    | cons hbase hexp hpos hrest => exact .cons hbase hexp hpos (ih hrest)
  | swap factor factor' rest =>
    cases h with
    | cons hbase hexp hpos hrest =>
      cases hrest with
      | cons hbase' hexp' hpos' hrest' =>
        rw [mul_left_comm]
        exact .cons hbase' hexp' hpos' (.cons hbase hexp hpos hrest')
  | trans _ _ ih₁ ih₂ => exact ih₂ (ih₁ h)

/-- One more factor multiplies the value, whether or not it is merged with another one. -/
theorem insert {base : Expr Rat} {x : F} {n : Nat} (h : ChainValue I factors w)
    (hbase : base.value? I = some x) (hpos : 0 < n) :
    ChainValue I (Factor.insert base n factors) (w * x ^ n) := by
  induction h with
  | nil =>
    rw [Factor.insert, one_mul, ← mul_one (x ^ n)]
    exact .cons hbase rfl hpos .nil
  | @cons head rest y w m hhead hexp hpos' hrest ih =>
    rw [Factor.insert]
    split
    · next heq =>
      rw [eq_of_beq heq] at hhead
      obtain rfl : y = x := Option.some.inj (hhead.symm.trans hbase)
      have hsum : y ^ m * w * y ^ n = y ^ (m + n) * w := by ring
      rw [hsum]
      refine .cons (by rwa [eq_of_beq heq]) ?_ (by omega) hrest
      rw [hexp]
      exact (Nat.cast_add m n).symm
    · rw [mul_assoc]
      exact .cons hhead hexp hpos' ih

end ChainValue

namespace Expr

variable [I.IsFaithful]

/-- Appending the factors of an expression to a power multiplies the value of the chain by that
power of the expression's value. -/
theorem appendFactors_value {e : Expr Rat} {factors : List (Factor Rat)} {v w : F} {n : Nat}
    (hfactors : ChainValue I factors w)
    (he : e.value? I = some v) (hpos : 0 < n) :
    ChainValue I (e.appendFactors n factors) (w * v ^ n) := by
  generalize hexponent : (n : Rat) = exponent
  fun_induction appendFactors exponent factors e generalizing v w n with
  | case1 exponent factors a b iha ihb =>
    obtain ⟨x, y, hx, hy, rfl⟩ := value?_product_iff.mp he
    rw [mul_pow, ← mul_assoc]
    exact ihb (iha hfactors hx hpos hexponent) hy hpos hexponent
  | case2 exponent factors a ih =>
    obtain ⟨x, hx, rfl⟩ := value?_neg_iff.mp he
    rw [neg_pow, ← mul_assoc]
    subst hexponent
    exact ih (hfactors.insert value?_neg_one hpos) hx hpos rfl
  | case3 exponent factors a k hk ih =>
    obtain ⟨m, hm, rfl⟩ := Exact.isPositiveWhole_iff.mp hk
    obtain ⟨x, hx, rfl⟩ := eq_pow_of_power_nat hm he
    rw [← pow_mul, mul_comm m n]
    subst hexponent
    exact ih hfactors hx (Nat.mul_pos hpos hm) (Nat.cast_mul n m)
  | case4 exponent factors a k hk =>
    subst hexponent
    exact hfactors.insert he hpos
  | case5 exponent factors e _ _ _ =>
    subst hexponent
    exact hfactors.insert he hpos

/-- The chain of an expression multiplies up to the value of the expression. -/
theorem chain_value {e : Expr Rat} {v : F} (he : e.value? I = some v) :
    ChainValue I e.chain v := by
  have h := appendFactors_value .nil he Nat.one_pos
  rwa [one_mul, pow_one, Nat.cast_one] at h

/-- How often a base divides an expression is a natural number. -/
theorem exists_occurrences_eq (base e : Expr Rat) : ∃ n : Nat, occurrences base e = n := by
  fun_induction occurrences base e with
  | case1 e h => exact ⟨1, rfl⟩
  | case2 a b _ iha ihb =>
    obtain ⟨m, hm⟩ := iha
    obtain ⟨n, hn⟩ := ihb
    exact ⟨m + n, by rw [hm, hn]; exact (Nat.cast_add m n).symm⟩
  | case3 a b _ iha ihb | case4 a b _ iha ihb =>
    rw [Exact.min_eq]
    split
    · exact iha
    · exact ihb
  | case5 a b _ iha => exact iha
  | case6 a k hk _ iha =>
    obtain ⟨m, -, rfl⟩ := Exact.isPositiveWhole_iff.mp hk
    obtain ⟨n, hn⟩ := iha
    exact ⟨m * n, by rw [hn]; exact (Nat.cast_mul m n).symm⟩
  | case7 => exact ⟨0, rfl⟩
  | case8 a _ iha => exact iha
  | case9 => exact ⟨0, rfl⟩

/-- The value of a factor's expression is the power of its base's value. -/
theorem toExpr_value {factor : Factor Rat} {x : F} {n : Nat} (hpos : 0 < n)
    (hbase : factor.base.value? I = some x) (hexp : factor.exponent = n) :
    factor.toExpr.value? I = some (x ^ n) := by
  unfold Factor.toExpr
  split
  · next hone =>
    have h : (n : Rat) = 1 := by rw [← hexp]; exact eq_of_beq hone
    obtain rfl : n = 1 := by exact_mod_cast h
    rwa [pow_one]
  · rw [hexp]
    exact value?_power_nat hbase hpos

end Expr

end SymbolicCalculus
