import SymbolicCalculus.Reduction.Factoring
import SymbolicCalculus.Reduction.Rule

/-!
# What a rule can do

`Expr.Rewrites e r` says what the rules make of a node, without the tests that decide whether they
match: an operand, an operand of an operand, a constant, or one of the few forms that are built
anew. Whatever holds of all these holds of every rule (`rewrites_of_replacement?`). Factoring leaves
a node as it is or builds it anew from the factor and the quotients (`factored_cases`).
-/

namespace SymbolicCalculus

namespace Expr

variable {α : Type} [Scalar α]

/-- A node and what some rule may make of it. -/
inductive Rewrites : Expr α → Expr α → Prop where
  | left {op : Operator} (a b : Expr α) : Rewrites (binary op a b) a
  | right {op : Operator} (hop : op ≠ .power) (a b : Expr α) : Rewrites (binary op a b) b
  | leftOfLeft {op op' : Operator} (hop : op ≠ .power) (a b c : Expr α) :
    Rewrites (binary op (binary op' a b) c) a
  | rightOfLeft {op op' : Operator} (hop : op ≠ .power) (hop' : op' ≠ .power) (a b c : Expr α) :
    Rewrites (binary op (binary op' a b) c) b
  | leftOfRight {op op' : Operator} (hop : op ≠ .power) (a b c : Expr α) :
    Rewrites (binary op c (binary op' a b)) a
  /-- What cancels leaves zero or one. -/
  | cancelled {op : Operator} (a b : Expr α) {n : Nat} (hn : n ≤ 1) :
    Rewrites (binary op a b) (nat n)
  | folded {op : Operator} {k l m : α} (h : op.result? k l = some m) :
    Rewrites (binary op (const k) (const l)) (const m)
  | doubled (a b : Expr α) : Rewrites (sum a b) (product (nat 2) a)
  | plusNegation (a b : Expr α) : Rewrites (sum a (neg b)) (difference a b)
  | zeroMinusConstant (a : Expr α) (k : α) : Rewrites (difference a (const k)) (const (-k))
  | zeroMinus (a b : Expr α) : Rewrites (difference a b) (neg b)
  | minusSum (a b c : Expr α) : Rewrites (difference a (sum b c)) (neg c)
  | minusSum' (a b c : Expr α) : Rewrites (difference a (sum b c)) (neg b)
  | minusConstant (a : Expr α) (k : α) :
    Rewrites (difference a (const k)) (sum a (const (Scalar.magnitude k)))
  | minusProduct (a b : Expr α) (k : α) :
    Rewrites (difference a (product (const k) b)) (sum a (product (const (Scalar.magnitude k)) b))
  | minusProduct' (a b : Expr α) (k : α) :
    Rewrites (difference a (product b (const k))) (sum a (product b (const (Scalar.magnitude k))))
  | minusNegation (a b : Expr α) : Rewrites (difference a (neg b)) (sum a b)
  | merged (k l : α) {a b : Expr α} (h : a = product (const l) b ∨ a = product b (const l)) :
    Rewrites (product (const k) a) (product (const (k * l)) b)
  | merged' (k l : α) {a b : Expr α} (h : a = product (const l) b ∨ a = product b (const l)) :
    Rewrites (product a (const k)) (product (const (k * l)) b)
  | timesReciprocal (a b c : Expr α) : Rewrites (product a (quotient b c)) (quotient a c)
  | timesReciprocal' (a b c : Expr α) : Rewrites (product (quotient b c) a) (quotient a c)
  | powerOverBase (a n c : Expr α) :
    Rewrites (quotient (power a n) c) (power a (difference n (nat 1)))
  | baseBelowPower (a b n c : Expr α) :
    Rewrites (quotient (quotient a (power b n)) c) (quotient a (power c (sum n (nat 1))))
  | baseBelowBase (a b c : Expr α) :
    Rewrites (quotient (quotient a b) c) (quotient a (power c (nat 2)))
  | powerOfPower (a n m : Expr α) : Rewrites (power (power a n) m) (power a (product n m))
  | negatedConstant (k : α) : Rewrites (neg (const k)) (const (-k))
  | negatedTwice (a : Expr α) : Rewrites (neg (neg a)) a

theorem rewrites_of_fold? {op : Operator} {a b r : Expr α} (h : Rule.fold? op a b = some r) :
    Rewrites (binary op a b) r := by
  unfold Rule.fold? at h
  split at h
  · obtain ⟨m, hm, rfl⟩ := Option.map_eq_some_iff.mp h
    exact .folded hm
  · contradiction

theorem eq_magnitude_of_flip? {e r : Expr α} (h : Rule.flip? e = some r) :
    ∃ k, e = const k ∧ k < Nat.cast 0 ∧ r = const (Scalar.magnitude k) := by
  unfold Rule.flip? at h
  split at h
  · next k =>
    split at h
    · next hk => exact ⟨k, rfl, hk, (Option.some.inj h).symm⟩
    · contradiction
  · contradiction

theorem eq_product_of_scaleProduct? {k : α} {e r : Expr α} (h : scaleProduct? k e = some r) :
    ∃ l u, (e = product (const l) u ∨ e = product u (const l)) ∧
      r = product (const (k * l)) u := by
  unfold scaleProduct? at h
  split at h
  · next l u => exact ⟨l, u, .inl rfl, (Option.some.inj h).symm⟩
  · next u l _ => exact ⟨l, u, .inr rfl, (Option.some.inj h).symm⟩
  · contradiction

theorem rewrites_of_mergeCoefficients? {a b r : Expr α} (h : mergeCoefficients? a b = some r) :
    Rewrites (product a b) r := by
  unfold mergeCoefficients? at h
  split at h
  · contradiction
  · next k _ =>
    obtain ⟨l, u, hu, rfl⟩ := eq_product_of_scaleProduct? h
    exact .merged k l hu
  · next k _ =>
    obtain ⟨l, u, hu, rfl⟩ := eq_product_of_scaleProduct? h
    exact .merged' k l hu
  · contradiction

end Expr

namespace Rule

open SymbolicCalculus.Expr

variable {α : Type} [Scalar α]

/-! ## The rules for each operator -/

theorem rewrites_of_sums :
    ∀ rule ∈ (sums : List (Rule α)), ∀ a b r, rule.replace? a b = some r →
      Rewrites (sum a b) r := by
  simp only [sums, List.forall_mem_cons]
  refine ⟨?_, ?_, ?_, ?_, ?_, by simp⟩ <;> intro a b r h
  · -- 0 + x = x
    obtain ⟨-, rfl⟩ : a.isZero = true ∧ b = r := by simpa using h
    exact .right (by decide) a b
  · -- x + 0 = x
    obtain ⟨-, rfl⟩ : b.isZero = true ∧ a = r := by simpa using h
    exact .left a b
  · exact rewrites_of_fold? h
  · -- x + x = 2*x
    obtain ⟨-, rfl⟩ : (a == b) = true ∧ product (nat 2) a = r := by simpa using h
    exact .doubled a b
  · -- x + (-y) = x - y
    split at h
    · next y =>
      obtain rfl := Option.some.inj h
      exact .plusNegation a y
    · contradiction

theorem rewrites_of_differences :
    ∀ rule ∈ (differences : List (Rule α)), ∀ a b r, rule.replace? a b = some r →
      Rewrites (difference a b) r := by
  simp only [differences, List.forall_mem_cons]
  refine ⟨?_, ?_, ?_, ?_, ?_, ?_, ?_, ?_, ?_, ?_, ?_, ?_, ?_, by simp⟩ <;> intro a b r h
  · -- x - 0 = x
    obtain ⟨-, rfl⟩ : b.isZero = true ∧ a = r := by simpa using h
    exact .left a b
  · -- 0 - k = -k
    split at h
    · next k =>
      obtain ⟨-, rfl⟩ : a.isZero = true ∧ const (-k) = r := by simpa using h
      exact .zeroMinusConstant a k
    · contradiction
  · exact rewrites_of_fold? h
  · -- x - x = 0
    obtain ⟨-, rfl⟩ : (a == b) = true ∧ nat 0 = r := by simpa using h
    exact .cancelled a b (by decide)
  · -- (A + B) - A = B
    split at h
    · next x y =>
      obtain ⟨-, rfl⟩ : (x == b) = true ∧ y = r := by simpa using h
      exact .rightOfLeft (by decide) (by decide) x y b
    · contradiction
  · -- (A + B) - B = A
    split at h
    · next x y =>
      obtain ⟨-, rfl⟩ : (y == b) = true ∧ x = r := by simpa using h
      exact .leftOfLeft (by decide) x y b
    · contradiction
  · -- A - (A + B) = -B
    split at h
    · next x y =>
      obtain ⟨-, rfl⟩ : (x == a) = true ∧ neg y = r := by simpa using h
      exact .minusSum a x y
    · contradiction
  · -- B - (A + B) = -A
    split at h
    · next x y =>
      obtain ⟨-, rfl⟩ : (y == a) = true ∧ neg x = r := by simpa using h
      exact .minusSum' a x y
    · contradiction
  · -- x - (-k) = x + k
    obtain ⟨_, hk, rfl⟩ := Option.map_eq_some_iff.mp h
    obtain ⟨k, rfl, -, rfl⟩ := eq_magnitude_of_flip? hk
    exact .minusConstant a k
  · -- x - (-k*y) = x + k*y
    split at h
    · next x y =>
      obtain ⟨_, hk, rfl⟩ := Option.map_eq_some_iff.mp h
      obtain ⟨k, rfl, -, rfl⟩ := eq_magnitude_of_flip? hk
      exact .minusProduct a y k
    · contradiction
  · -- x - (y*-k) = x + y*k
    split at h
    · next x y =>
      obtain ⟨_, hk, rfl⟩ := Option.map_eq_some_iff.mp h
      obtain ⟨k, rfl, -, rfl⟩ := eq_magnitude_of_flip? hk
      exact .minusProduct' a x k
    · contradiction
  · -- x - (-y) = x + y
    split at h
    · next y =>
      obtain rfl := Option.some.inj h
      exact .minusNegation a y
    · contradiction
  · -- 0 - x = -x
    obtain ⟨-, rfl⟩ : a.isZero = true ∧ neg b = r := by simpa using h
    exact .zeroMinus a b

theorem rewrites_of_products :
    ∀ rule ∈ (products : List (Rule α)), ∀ a b r, rule.replace? a b = some r →
      Rewrites (product a b) r := by
  simp only [products, List.forall_mem_cons]
  refine ⟨?_, ?_, ?_, ?_, ?_, ?_, ?_, ?_, ?_, by simp⟩ <;> intro a b r h
  · -- 0 * x = 0
    obtain ⟨-, rfl⟩ : (a.isZero = true ∨ b.isZero = true) ∧ nat 0 = r := by simpa using h
    exact .cancelled a b (by decide)
  · -- 1 * x = x
    obtain ⟨-, rfl⟩ : a.isOne = true ∧ b = r := by simpa using h
    exact .right (by decide) a b
  · -- x * 1 = x
    obtain ⟨-, rfl⟩ : b.isOne = true ∧ a = r := by simpa using h
    exact .left a b
  · exact rewrites_of_fold? h
  · exact rewrites_of_mergeCoefficients? h
  · -- A * (1/B) = A/B
    split at h
    · next x y =>
      obtain ⟨-, rfl⟩ : x.isOne = true ∧ quotient a y = r := by simpa using h
      exact .timesReciprocal a x y
    · contradiction
  · -- (1/B) * A = A/B
    split at h
    · next x y =>
      obtain ⟨-, rfl⟩ : x.isOne = true ∧ quotient b y = r := by simpa using h
      exact .timesReciprocal' b x y
    · contradiction
  · -- (B/A) * A = B
    split at h
    · next x y =>
      obtain ⟨-, rfl⟩ : (y == b) = true ∧ x = r := by simpa using h
      exact .leftOfLeft (by decide) x y b
    · contradiction
  · -- A * (B/A) = B
    split at h
    · next x y =>
      obtain ⟨-, rfl⟩ : (y == a) = true ∧ x = r := by simpa using h
      exact .leftOfRight (by decide) x y a
    · contradiction

theorem rewrites_of_quotients :
    ∀ rule ∈ (quotients : List (Rule α)), ∀ a b r, rule.replace? a b = some r →
      Rewrites (quotient a b) r := by
  simp only [quotients, List.forall_mem_cons]
  refine ⟨?_, ?_, ?_, ?_, ?_, ?_, ?_, ?_, ?_, by simp⟩ <;> intro a b r h
  · -- x / 1 = x
    obtain ⟨-, rfl⟩ : b.isOne = true ∧ a = r := by simpa using h
    exact .left a b
  · -- 0 / x = 0
    obtain ⟨-, rfl⟩ : (a.isZero = true ∧ b.isZero = false) ∧ nat 0 = r := by simpa using h
    exact .cancelled a b (by decide)
  · exact rewrites_of_fold? h
  · -- x / x = 1
    obtain ⟨-, rfl⟩ : ((a == b) = true ∧ b.isZero = false) ∧ nat 1 = r := by simpa using h
    exact .cancelled a b (by decide)
  · -- (A*B)/A = B
    split at h
    · next x y =>
      obtain ⟨-, rfl⟩ : (x == b) = true ∧ y = r := by simpa using h
      exact .rightOfLeft (by decide) (by decide) x y b
    · contradiction
  · -- (A*B)/B = A
    split at h
    · next x y =>
      obtain ⟨-, rfl⟩ : (y == b) = true ∧ x = r := by simpa using h
      exact .leftOfLeft (by decide) x y b
    · contradiction
  · -- (A^B)/A = A^(B - 1)
    split at h
    · next x n =>
      obtain ⟨-, rfl⟩ : (x == b) = true ∧ power x (difference n (nat 1)) = r := by simpa using h
      exact .powerOverBase x n b
    · contradiction
  · -- (Y/X^N)/X = Y/X^(N + 1)
    split at h
    · next y x n =>
      obtain ⟨-, rfl⟩ : (x == b) = true ∧ quotient y (power b (sum n (nat 1))) = r := by
        simpa using h
      exact .baseBelowPower y x n b
    · contradiction
  · -- (Y/X)/X = Y/X^2
    split at h
    · next y x =>
      obtain ⟨-, rfl⟩ : (x == b) = true ∧ quotient y (power b (nat 2)) = r := by simpa using h
      exact .baseBelowBase y x b
    · contradiction

theorem rewrites_of_powers :
    ∀ rule ∈ (powers : List (Rule α)), ∀ a b r, rule.replace? a b = some r →
      Rewrites (power a b) r := by
  simp only [powers, List.forall_mem_cons]
  refine ⟨?_, ?_, ?_, ?_, by simp⟩ <;> intro a b r h
  · -- x^1 = x
    obtain ⟨-, rfl⟩ : b.isOne = true ∧ a = r := by simpa using h
    exact .left a b
  · -- x^0 = 1
    obtain ⟨-, rfl⟩ : b.isZero = true ∧ nat 1 = r := by simpa using h
    exact .cancelled a b (by decide)
  · exact rewrites_of_fold? h
  · -- (a^b)^c = a^(b*c)
    split at h
    · next x n =>
      obtain rfl := Option.some.inj h
      exact .powerOfPower x n b
    · contradiction

theorem rewrites_of_forOperator (op : Operator) :
    ∀ rule ∈ (forOperator op : List (Rule α)), ∀ a b r, rule.replace? a b = some r →
      Rewrites (binary op a b) r := by
  cases op with
  | plus => exact rewrites_of_sums
  | minus => exact rewrites_of_differences
  | times => exact rewrites_of_products
  | divide => exact rewrites_of_quotients
  | power => exact rewrites_of_powers

end Rule

namespace Expr

variable {α : Type} [Scalar α]

/-- Each rule makes of a node what `Rewrites` lists. -/
theorem rewrites_of_replacement? {e r : Expr α} {name : String}
    (h : e.replacement? = some (name, r)) : Rewrites e r := by
  unfold replacement? at h
  split at h
  · next op a b =>
    obtain ⟨rule, hmem, hrule⟩ := List.exists_of_findSome?_eq_some h
    obtain ⟨r', hr', heq⟩ := Option.map_eq_some_iff.mp hrule
    obtain rfl : r' = r := congrArg Prod.snd heq
    exact Rule.rewrites_of_forOperator op rule hmem a b r' hr'
  · next k =>
    obtain ⟨-, rfl⟩ : _ ∧ const (-k) = r := by simpa using h
    exact .negatedConstant k
  · next a =>
    obtain ⟨-, rfl⟩ : _ ∧ a = r := by simpa using h
    exact .negatedTwice a
  · contradiction

/-! ## Factoring -/

/-- What is pulled out of a node is the common factor of its operands, and divides both. -/
theorem divideOut?_of_extract? {op : Operator} {a b g a' b' : Expr α}
    (h : extract? op a b = some (g, a', b')) :
    commonFactor? a b = some g ∧ divideOut? a g = some a' ∧ divideOut? b g = some b' := by
  unfold extract? at h
  obtain ⟨factor, hfactor, h⟩ := Option.bind_eq_some_iff.mp h
  split at h
  · contradiction
  · obtain ⟨l, hl, h⟩ := Option.bind_eq_some_iff.mp h
    obtain ⟨r, hr, h⟩ := Option.bind_eq_some_iff.mp h
    obtain ⟨rfl, rfl, rfl⟩ : factor = g ∧ l = a' ∧ r = b' := by simpa using h
    exact ⟨hfactor, hl, hr⟩

theorem factored_cases (e : Expr α) :
    e.factored = .unchanged e ∨
      ∃ op a b factor a' b', e = binary op a b ∧ op ≠ .times ∧ op ≠ .power ∧
        extract? op a b = some (factor, a', b') ∧
        e.factored = ⟨if op = .divide then quotient a' b' else product (binary op a' b') factor,
          true, [.factored e factor]⟩ := by
  unfold factored
  split
  · exact .inl rfl
  · exact .inl rfl
  · next op a b htimes hpower =>
    cases h : extract? op a b with
    | none => exact .inl rfl
    | some found =>
      obtain ⟨factor, a', b'⟩ := found
      exact .inr ⟨op, a, b, factor, a', b', rfl, htimes, hpower, h, rfl⟩
  · exact .inl rfl

end Expr

end SymbolicCalculus
