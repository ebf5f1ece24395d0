import SymbolicCalculus.Factor.Common
import SymbolicCalculus.Factor.Quotient

/-!
# How factoring comes to its results

The search for a common factor and the divisions by one only put together what they find. What they
find is said here once, over any numbers: which factors two chains share (`eq_of_mem_sharedFactor`,
`productOf?_induction`), in what ways a search ends with a factor (`FoundFactor`), and what a
division by a power of a base (`PowerQuotient`) or by a constant (`ConstantQuotient`) leaves. There
is a constructor for each way to a result, so a fact about all results is proved by induction on
these.
-/

namespace SymbolicCalculus.Expr

variable {α : Type}

/-! ## Parts -/

section parts

variable {e p l r : Expr α}

theorem powerBase?_eq_some : e.powerBase? = some p ↔ ∃ n, e = power p n := by
  constructor
  · intro h
    unfold powerBase? at h
    split at h
    · next a n =>
      obtain rfl := Option.some.inj h
      exact ⟨n, rfl⟩
    · contradiction
  · rintro ⟨n, rfl⟩
    rfl

theorem constant?_eq_some {k : α} : e.constant? = some k ↔ e = const k := by
  constructor
  · intro h
    unfold constant? at h
    split at h
    · next a =>
      obtain rfl := Option.some.inj h
      rfl
    · contradiction
  · rintro rfl
    rfl

theorem terms?_eq_some : e.terms? = some (l, r) ↔ e = sum l r ∨ e = difference l r := by
  constructor
  · intro h
    unfold terms? at h
    split at h
    · obtain ⟨rfl, rfl⟩ := Prod.mk.inj (Option.some.inj h)
      exact .inl rfl
    · obtain ⟨rfl, rfl⟩ := Prod.mk.inj (Option.some.inj h)
      exact .inr rfl
    · contradiction
  · rintro (rfl | rfl)
    · rfl
    · rfl

end parts

variable [Scalar α]

/-! ## Factors that two chains share -/

section shared

variable {a b g : Expr α} {factor shared : Factor α} {factors : List (Factor α)}

theorem gcd?_eq_some {x y k : α} : Scalar.gcd? x y = some k ↔
    ∃ m n, Scalar.whole? x = some m ∧ Scalar.whole? y = some n ∧ k = Nat.cast (m.gcd n) := by
  unfold Scalar.gcd?
  constructor
  · intro h
    split at h
    · next m n hm hn => exact ⟨m, n, hm, hn, (Option.some.inj h).symm⟩
    · contradiction
  · rintro ⟨m, n, hm, hn, rfl⟩
    rw [hm, hn]

/-- Of the coefficients, their greatest common divisor is shared. -/
theorem eq_of_mem_sharedCoefficient (h : factor ∈ sharedCoefficient a b) :
    ∃ k, Scalar.gcd? a.coefficient b.coefficient = some k ∧ Nat.cast 1 < k ∧
      factor = ⟨const k, Nat.cast 1⟩ := by
  unfold sharedCoefficient at h
  split at h
  · next k hk =>
    split at h
    · next hone => exact ⟨k, hk, hone, List.mem_singleton.mp h⟩
    · contradiction
  · contradiction

/-- Of another factor of a chain, its base is shared as often as it is contained. -/
theorem eq_of_mem_sharedFactor (h : shared ∈ sharedFactor a factor) :
    factor.base.constant? = none ∧ Nat.cast 1 ≤ containment factor a ∧
      shared = ⟨factor.base, containment factor a⟩ := by
  unfold sharedFactor at h
  split at h
  · contradiction
  · next hconstant =>
    dsimp only at h
    split at h
    · next hone => exact ⟨by simpa using hconstant, hone, List.mem_singleton.mp h⟩
    · contradiction

/-- What holds of all factors and of the products of what it holds of, holds of their product. -/
theorem productOf?_induction {P : Expr α → Prop} (hproduct : ∀ {a b}, P a → P b → P (product a b))
    (hfactors : ∀ factor ∈ factors, P factor.toExpr) (h : productOf? factors = some g) : P g := by
  cases factors with
  | nil => contradiction
  | cons head rest =>
    obtain rfl := Option.some.inj h
    obtain ⟨hhead, hrest⟩ := List.forall_mem_cons.mp hfactors
    clear hfactors h
    generalize head.toExpr = e at hhead
    induction rest generalizing e with
    | nil => exact hhead
    | cons factor rest ih =>
      obtain ⟨hfactor, hrest⟩ := List.forall_mem_cons.mp hrest
      exact ih hrest _ (hproduct hhead hfactor)

/-- Two expressions are compared by the chain of either. -/
theorem sharedByChains?_cases (h : sharedByChains? a b = some g) :
    sharedFactors? a b = some g ∨ sharedFactors? b a = some g := by
  unfold sharedByChains? at h
  cases hfirst : sharedFactors? a b with
  | some g' =>
    rw [hfirst] at h
    exact .inl h
  | none =>
    rw [hfirst] at h
    exact .inr h

end shared

/-! ## Common factors -/

/-- `g` is what a search for a common factor of two expressions found. -/
inductive FoundFactor : Expr α → Expr α → Expr α → Prop where
  | leftZero {a b : Expr α} (ha : a.isZero = true) : FoundFactor a b b
  | rightZero {a b : Expr α} (hb : b.isZero = true) : FoundFactor a b a
  | same {a b : Expr α} (hab : (a == b) = true) : FoundFactor a b a
  | numbers {x y k : α} (hk : Scalar.gcd? x y = some k) :
      FoundFactor (const x) (const y) (const k)
  | chains {a b g : Expr α} (h : sharedByChains? a b = some g) : FoundFactor a b g
  | bases {p n q m g : Expr α} (h : FoundFactor p q g) : FoundFactor (power p n) (power q m) g
  | leftBase {p n b g : Expr α} (h : FoundFactor p b g) : FoundFactor (power p n) b g
  | rightBase {a q m g : Expr α} (h : FoundFactor q a g) : FoundFactor a (power q m) g
  | leftTerms {a l r b g' g : Expr α} (ha : a = sum l r ∨ a = difference l r)
      (hl : FoundFactor l b g') (hr : FoundFactor g' r g) : FoundFactor a b g
  | rightTerms {a b l r g' g : Expr α} (hb : b = sum l r ∨ b = difference l r)
      (hl : FoundFactor l a g') (hr : FoundFactor g' r g) : FoundFactor a b g

theorem foundFactor_of_commonFactorWithin? {steps : Nat} {a b g : Expr α}
    (h : commonFactorWithin? steps a b = some g) : FoundFactor a b g := by
  induction steps generalizing a b g with
  | zero => contradiction
  | succ steps ih =>
    unfold commonFactorWithin? at h
    split at h
    · next ha =>
      obtain rfl := Option.some.inj h
      exact .leftZero ha
    split at h
    · next hb =>
      obtain rfl := Option.some.inj h
      exact .rightZero hb
    split at h
    · next hab =>
      obtain rfl := Option.some.inj h
      exact .same hab
    split at h
    · next x y hx hy =>
      obtain ⟨k, hk, rfl⟩ := Option.map_eq_some_iff.mp h
      obtain rfl := constant?_eq_some.mp hx
      obtain rfl := constant?_eq_some.mp hy
      exact .numbers hk
    split at h
    · exact .chains h
    split at h
    · next p q hp hq =>
      obtain ⟨n, rfl⟩ := powerBase?_eq_some.mp hp
      obtain ⟨m, rfl⟩ := powerBase?_eq_some.mp hq
      exact .bases (ih h)
    · next p hp _ =>
      obtain ⟨n, rfl⟩ := powerBase?_eq_some.mp hp
      exact .leftBase (ih h)
    · next q _ hq =>
      obtain ⟨m, rfl⟩ := powerBase?_eq_some.mp hq
      exact .rightBase (ih h)
    split at h
    · next l r hterms =>
      obtain ⟨g', hg', h⟩ := Option.bind_eq_some_iff.mp h
      exact .leftTerms (terms?_eq_some.mp hterms) (ih hg') (ih h)
    · next l r _ hterms =>
      obtain ⟨g', hg', h⟩ := Option.bind_eq_some_iff.mp h
      exact .rightTerms (terms?_eq_some.mp hterms) (ih hg') (ih h)
    · exact .chains h

/-- Whatever the common factor of two expressions is, it was found in one of these ways. -/
theorem foundFactor_of_commonFactor? {a b g : Expr α} (h : commonFactor? a b = some g) :
    FoundFactor a b g :=
  foundFactor_of_commonFactorWithin? h

/-! ## Division by a power of a base -/

/-- `q` is what a division of an expression by the power `n` of a base returned. -/
inductive PowerQuotient (base : Expr α) : Expr α → α → Expr α → Prop where
  | rest {e : Expr α} {n : α} (hn : n ≤ Nat.cast 0) : PowerQuotient base e n e
  | self {e : Expr α} {n : α} (he : (e == base) = true) (hn : (n == Nat.cast 1) = true) :
      PowerQuotient base e n (nat 1)
  | product {a b a' b' : Expr α} {n : α} (hpos : ¬ n ≤ Nat.cast 0)
      (ha : PowerQuotient base a (min (occurrences base a) n) a')
      (hb : PowerQuotient base b (n - min (occurrences base a) n) b') :
      PowerQuotient base (product a b) n (product a' b')
  | sum {a b a' b' : Expr α} {n : α} (hpos : ¬ n ≤ Nat.cast 0) (ha : PowerQuotient base a n a')
      (hb : PowerQuotient base b n b') : PowerQuotient base (sum a b) n (sum a' b')
  | difference {a b a' b' : Expr α} {n : α} (hpos : ¬ n ≤ Nat.cast 0)
      (ha : PowerQuotient base a n a') (hb : PowerQuotient base b n b') :
      PowerQuotient base (difference a b) n (difference a' b')
  | quotient {a b a' : Expr α} {n : α} (hpos : ¬ n ≤ Nat.cast 0)
      (ha : PowerQuotient base a n a') : PowerQuotient base (quotient a b) n (quotient a' b)
  | lowered {a q : Expr α} {k n : α} (hpos : ¬ n ≤ Nat.cast 0)
      (hk : Scalar.isPositiveWhole k = true) (ha : (a == base) = true)
      (hq : lowerPower? a k n = some q) : PowerQuotient base (power a (const k)) n q
  | power {a a' : Expr α} {k n : α} (hpos : ¬ n ≤ Nat.cast 0)
      (hk : Scalar.isPositiveWhole k = true) (hne : (a == base) = false)
      (hwhole : Scalar.isWhole (n / k) = true) (ha : PowerQuotient base a (n / k) a') :
      PowerQuotient base (power a (const k)) n (power a' (const k))
  | neg {a a' : Expr α} {n : α} (hpos : ¬ n ≤ Nat.cast 0) (ha : PowerQuotient base a n a') :
      PowerQuotient base (neg a) n (neg a')

/-- What is left of a power is one, its base, or a lower power. -/
theorem lowerPower?_cases {a q : Expr α} {k n : α} (h : lowerPower? a k n = some q) :
    ¬ k - n < Nat.cast 0 ∧
      ((k - n == Nat.cast 0) = true ∧ q = nat 1 ∨
        (k - n == Nat.cast 1) = true ∧ q = a ∨
          (k - n == Nat.cast 0) = false ∧ q = power a (const (k - n))) := by
  unfold lowerPower? at h
  dsimp only at h
  split at h
  · contradiction
  · next hnonneg =>
    refine ⟨hnonneg, ?_⟩
    split at h
    · next hzero => exact .inl ⟨hzero, (Option.some.inj h).symm⟩
    · next hzero =>
      split at h
      · next hone => exact .inr (.inl ⟨hone, (Option.some.inj h).symm⟩)
      · exact .inr (.inr ⟨by simpa using hzero, (Option.some.inj h).symm⟩)

theorem powerQuotient_of_divideByPower? {base e q : Expr α} {n : α}
    (h : divideByPower? base e n = some q) : PowerQuotient base e n q := by
  fun_induction divideByPower? base e n generalizing q with
  | case1 e n hle =>
    obtain rfl := Option.some.inj h
    exact .rest hle
  | case2 e n _ he hn =>
    obtain rfl := Option.some.inj h
    exact .self he hn
  | case4 n hpos a b _ _ iha =>
    rename_i ihb
    obtain ⟨a', ha', h⟩ := Option.bind_eq_some_iff.mp h
    obtain ⟨b', hb', h⟩ := Option.bind_eq_some_iff.mp h
    obtain rfl := Option.some.inj h
    exact .product hpos (iha ha') (ihb hb')
  | case5 n hpos a b _ iha ihb =>
    obtain ⟨a', ha', h⟩ := Option.bind_eq_some_iff.mp h
    obtain ⟨b', hb', h⟩ := Option.bind_eq_some_iff.mp h
    obtain rfl := Option.some.inj h
    exact .sum hpos (iha ha') (ihb hb')
  | case6 n hpos a b _ iha ihb =>
    obtain ⟨a', ha', h⟩ := Option.bind_eq_some_iff.mp h
    obtain ⟨b', hb', h⟩ := Option.bind_eq_some_iff.mp h
    obtain rfl := Option.some.inj h
    exact .difference hpos (iha ha') (ihb hb')
  | case7 n hpos a b _ iha =>
    obtain ⟨a', ha', h⟩ := Option.bind_eq_some_iff.mp h
    obtain rfl := Option.some.inj h
    exact .quotient hpos (iha ha')
  | case9 n hpos a k hk ha _ => exact .lowered hpos (by simpa using hk) ha h
  | case10 n hpos a k hk hne hwhole _ ih =>
    obtain ⟨a', ha', h⟩ := Option.bind_eq_some_iff.mp h
    obtain rfl := Option.some.inj h
    exact .power hpos (by simpa using hk) (by simpa using hne) hwhole (ih ha')
  | case12 n hpos a _ ih =>
    obtain ⟨a', ha', h⟩ := Option.bind_eq_some_iff.mp h
    obtain rfl := Option.some.inj h
    exact .neg hpos (ih ha')
  | _ => contradiction

/-! ## Division by a constant -/

/-- `q` is what a division of an expression by the constant `k` returned. -/
inductive ConstantQuotient (k : α) : Expr α → Expr α → Prop where
  | one {e : Expr α} (hk : (k == Nat.cast 1) = true) : ConstantQuotient k e e
  | const {a r : α} (hr : Operator.result? .divide a k = some r)
      (hwhole : Scalar.isWhole r = true) : ConstantQuotient k (const a) (const r)
  | left {a b a' : Expr α} (ha : ConstantQuotient k a a') :
      ConstantQuotient k (product a b) (product a' b)
  | right {a b b' : Expr α} (hb : ConstantQuotient k b b') :
      ConstantQuotient k (product a b) (product a b')
  | sum {a b a' b' : Expr α} (ha : ConstantQuotient k a a') (hb : ConstantQuotient k b b') :
      ConstantQuotient k (sum a b) (sum a' b')
  | difference {a b a' b' : Expr α} (ha : ConstantQuotient k a a')
      (hb : ConstantQuotient k b b') : ConstantQuotient k (difference a b) (difference a' b')
  | quotient {a b a' : Expr α} (ha : ConstantQuotient k a a') :
      ConstantQuotient k (quotient a b) (quotient a' b)
  | sign {a : Expr α} (hk : (k == -Nat.cast 1) = true) : ConstantQuotient k (neg a) a
  | neg {a a' : Expr α} (ha : ConstantQuotient k a a') : ConstantQuotient k (neg a) (neg a')

theorem constantQuotient_of_divideByConstant? {e q : Expr α} {k : α}
    (h : divideByConstant? k e = some q) : ConstantQuotient k e q := by
  fun_induction divideByConstant? k e generalizing q with
  | case1 e hk =>
    obtain rfl := Option.some.inj h
    exact .one hk
  | case2 _ a r hr hwhole =>
    obtain rfl := Option.some.inj h
    exact .const hr hwhole
  | case5 _ a b a' ha' iha =>
    obtain rfl := Option.some.inj h
    exact .left (iha ha')
  | case6 _ a b _ _ ihb =>
    obtain ⟨b', hb', rfl⟩ := Option.map_eq_some_iff.mp h
    exact .right (ihb hb')
  | case7 _ a b iha ihb =>
    obtain ⟨a', ha', h⟩ := Option.bind_eq_some_iff.mp h
    obtain ⟨b', hb', h⟩ := Option.bind_eq_some_iff.mp h
    obtain rfl := Option.some.inj h
    exact .sum (iha ha') (ihb hb')
  | case8 _ a b iha ihb =>
    obtain ⟨a', ha', h⟩ := Option.bind_eq_some_iff.mp h
    obtain ⟨b', hb', h⟩ := Option.bind_eq_some_iff.mp h
    obtain rfl := Option.some.inj h
    exact .difference (iha ha') (ihb hb')
  | case9 _ a b iha =>
    obtain ⟨a', ha', h⟩ := Option.bind_eq_some_iff.mp h
    obtain rfl := Option.some.inj h
    exact .quotient (iha ha')
  | case10 _ a hk =>
    obtain rfl := Option.some.inj h
    exact .sign hk
  | case11 _ a _ iha =>
    obtain ⟨a', ha', rfl⟩ := Option.map_eq_some_iff.mp h
    exact .neg (iha ha')
  | _ => contradiction

end SymbolicCalculus.Expr
