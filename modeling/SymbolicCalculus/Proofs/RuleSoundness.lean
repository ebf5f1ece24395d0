import Mathlib.Algebra.Order.Field.Rat
import Mathlib.Tactic.FieldSimp
import Mathlib.Tactic.Linarith
import SymbolicCalculus.Proofs.ExactValue
import SymbolicCalculus.Proofs.Rewriting

/-!
# The rules keep the value

Each rule for each kind of node, in a field: wherever the node has a value, what the rule makes of
it has the same one (`Rule.Sound`). The converse fails for most rules, since `x - x` needs a value
of `x` and zero does not. One rule is sound only as far as the meaning of powers allows it, the one
that multiplies the exponents of nested powers (`Rule.KeepsNestedPowers`).
`Expr.replacement?_refines` collects the rules for all nodes.
-/

namespace SymbolicCalculus

/-! ## Sound rules -/

namespace Rule

open SymbolicCalculus.Expr

variable {β : Type}

/-- Does a rule that made `r` of a node keep the values of nested powers? Only one rule makes a
power of a power's base, and whether it may do so depends on the values of the base and the
exponents. -/
def KeepsNestedPowers (I : Interpretation Rat β) (rule : String) (r : Expr Rat) : Prop :=
  rule = "(a^b)^c = a^(b*c)" →
    ∀ a m n, r = power a (product m n) → Refines I (power (power a m) n) r

/-- What the rule makes of a node has the node's value, wherever that has one, if nested powers keep
theirs. -/
def Sound (I : Interpretation Rat β) (op : Operator) (rule : Rule Rat) : Prop :=
  ∀ a b r, rule.replace? a b = some r → KeepsNestedPowers I rule.name r →
    Refines I (binary op a b) r

theorem firstMatch?_refines {I : Interpretation Rat β} {op : Operator} {rules : List (Rule Rat)}
    (hsound : ∀ rule ∈ rules, Sound I op rule) {a b r : Expr Rat} {name : String}
    (h : firstMatch? rules a b = some (name, r)) (hkeeps : KeepsNestedPowers I name r) :
    Refines I (binary op a b) r := by
  obtain ⟨rule, hmem, hrule⟩ := List.exists_of_findSome?_eq_some h
  obtain ⟨r', hr', heq⟩ := Option.map_eq_some_iff.mp hrule
  obtain ⟨rfl, rfl⟩ : rule.name = name ∧ r' = r := by simpa using heq
  exact hsound rule hmem a b r' hr' hkeeps

end Rule

variable {F : Type} [Field F] {I : Interpretation Rat F} [I.IsFaithful]

namespace Expr

/-! ## What the tests of the rules say -/

theorem eq_zero_of_isZero {e : Expr Rat} {x : F} (h : e.isZero = true)
    (hx : e.value? I = some x) : x = 0 := by
  cases e with
  | const k =>
    obtain rfl : k = 0 := Exact.isZero_iff.mp h
    simpa using hx.symm
  | _ => contradiction

theorem eq_one_of_isOne {e : Expr Rat} {x : F} (h : e.isOne = true)
    (hx : e.value? I = some x) : x = 1 := by
  cases e with
  | const k =>
    obtain rfl : k = 1 := Exact.isOne_iff.mp h
    simpa using hx.symm
  | _ => contradiction

theorem eq_of_flip? {e k : Expr Rat} (h : Rule.flip? e = some k) :
    ∃ a : Rat, e = const a ∧ k = const (-a) := by
  obtain ⟨a, rfl, ha, rfl⟩ := eq_magnitude_of_flip? h
  have hmagnitude : Scalar.magnitude a = -a := if_pos ha
  exact ⟨a, rfl, congrArg const hmagnitude⟩

end Expr

namespace Rule

open SymbolicCalculus.Expr Interpretation.IsFaithful

variable [CharZero F]

/-- What an operation on constants gives in exact arithmetic is what it gives in the field. -/
theorem operate_ratCast {op : Operator} {a b k : Rat} {v : F} (hk : op.result? a b = some k)
    (h : I.operate op a b = some v) : v = k := by
  cases op with
  | plus =>
    obtain rfl : a + b = k := Option.some.inj hk
    rw [operate_plus, Option.some.injEq] at h
    rw [← h, Rat.cast_add]
  | minus =>
    obtain rfl : a - b = k := Option.some.inj hk
    rw [operate_minus, Option.some.injEq] at h
    rw [← h, Rat.cast_sub]
  | times =>
    obtain rfl : a * b = k := Option.some.inj hk
    rw [operate_times, Option.some.injEq] at h
    rw [← h, Rat.cast_mul]
  | divide =>
    obtain ⟨-, rfl⟩ := Exact.result?_divide.mp hk
    obtain ⟨-, rfl⟩ := operate_divide.mp h
    rw [Rat.cast_div]
  | power => exact power_ratCast hk h

theorem fold?_sound (op : Operator) (name : String) : Sound I op ⟨name, fold? op⟩ := by
  intro a b r h _ v hv
  dsimp only at h
  unfold fold? at h
  split at h
  · next x y =>
    obtain ⟨w, hw, rfl⟩ := Option.map_eq_some_iff.mp h
    obtain ⟨_, _, hx, hy, hv⟩ := value?_binary_eq_some.mp hv
    obtain rfl := Option.some.inj ((value?_const x).symm.trans hx)
    obtain rfl := Option.some.inj ((value?_const y).symm.trans hy)
    rw [operate_ratCast hw hv]
    exact value?_const w
  · contradiction

/-! ## Sums -/

theorem sums_sound : ∀ rule ∈ sums, Sound I .plus rule := by
  simp only [sums, List.forall_mem_cons]
  refine ⟨?_, ?_, fold?_sound _ _, ?_, ?_, by simp⟩ <;> intro a b r h hkeeps v hv <;>
    obtain ⟨x, y, hx, hy, rfl⟩ := value?_sum_iff.mp hv
  · -- 0 + x = x
    obtain ⟨hz, rfl⟩ : a.isZero = true ∧ b = r := by simpa using h
    obtain rfl := eq_zero_of_isZero hz hx
    rwa [zero_add]
  · -- x + 0 = x
    obtain ⟨hz, rfl⟩ : b.isZero = true ∧ a = r := by simpa using h
    obtain rfl := eq_zero_of_isZero hz hy
    rwa [add_zero]
  · -- x + x = 2*x
    obtain ⟨rfl, rfl⟩ : a = b ∧ product (nat 2) a = r := by simpa using h
    obtain rfl : x = y := Option.some.inj (hx.symm.trans hy)
    exact value?_product_iff.mpr ⟨2, x, by simp, hx, two_mul x⟩
  · -- x + (-y) = x - y
    dsimp only at h
    split at h
    · next b =>
      obtain rfl := Option.some.inj h
      obtain ⟨z, hz, rfl⟩ := value?_neg_iff.mp hy
      exact value?_difference_iff.mpr ⟨x, z, hx, hz, sub_eq_add_neg x z⟩
    · contradiction

/-! ## Differences -/

theorem differences_sound : ∀ rule ∈ differences, Sound I .minus rule := by
  simp only [differences, List.forall_mem_cons]
  refine ⟨?_, ?_, fold?_sound _ _, ?_, ?_, ?_, ?_, ?_, ?_, ?_, ?_, ?_, ?_, by simp⟩ <;>
    intro a b r h hkeeps v hv <;> obtain ⟨x, y, hx, hy, rfl⟩ := value?_difference_iff.mp hv <;>
    dsimp only at h
  · -- x - 0 = x
    obtain ⟨hz, rfl⟩ : b.isZero = true ∧ a = r := by simpa using h
    obtain rfl := eq_zero_of_isZero hz hy
    rwa [sub_zero]
  · -- 0 - k = -k
    split at h
    · next k =>
      obtain ⟨hz, rfl⟩ : a.isZero = true ∧ const (-k) = r := by simpa using h
      obtain rfl := eq_zero_of_isZero hz hx
      obtain rfl : (k : F) = y := by simpa using hy
      rw [zero_sub]
      exact value?_const_neg k
    · contradiction
  · -- x - x = 0
    obtain ⟨rfl, rfl⟩ : a = b ∧ nat 0 = r := by simpa using h
    obtain rfl : x = y := Option.some.inj (hx.symm.trans hy)
    rw [sub_self]
    exact value?_zero
  · -- (A + B) - A = B
    split at h
    · next c d =>
      obtain ⟨rfl, rfl⟩ : c = b ∧ d = r := by simpa using h
      obtain ⟨z, w, hz, hw, rfl⟩ := value?_sum_iff.mp hx
      obtain rfl : z = y := Option.some.inj (hz.symm.trans hy)
      rwa [add_sub_cancel_left]
    · contradiction
  · -- (A + B) - B = A
    split at h
    · next c d =>
      obtain ⟨rfl, rfl⟩ : d = b ∧ c = r := by simpa using h
      obtain ⟨z, w, hz, hw, rfl⟩ := value?_sum_iff.mp hx
      obtain rfl : w = y := Option.some.inj (hw.symm.trans hy)
      rwa [add_sub_cancel_right]
    · contradiction
  · -- A - (A + B) = -B
    split at h
    · next c d =>
      obtain ⟨rfl, rfl⟩ : c = a ∧ neg d = r := by simpa using h
      obtain ⟨z, w, hz, hw, rfl⟩ := value?_sum_iff.mp hy
      obtain rfl : z = x := Option.some.inj (hz.symm.trans hx)
      exact value?_neg_iff.mpr ⟨w, hw, by ring⟩
    · contradiction
  · -- B - (A + B) = -A
    split at h
    · next c d =>
      obtain ⟨rfl, rfl⟩ : d = a ∧ neg c = r := by simpa using h
      obtain ⟨z, w, hz, hw, rfl⟩ := value?_sum_iff.mp hy
      obtain rfl : w = x := Option.some.inj (hw.symm.trans hx)
      exact value?_neg_iff.mpr ⟨z, hz, by ring⟩
    · contradiction
  · -- x - (-k) = x + k
    obtain ⟨_, hk, rfl⟩ := Option.map_eq_some_iff.mp h
    obtain ⟨k, rfl, rfl⟩ := eq_of_flip? hk
    obtain rfl : (k : F) = y := by simpa using hy
    exact value?_sum_iff.mpr ⟨x, -k, hx, value?_const_neg k, by ring⟩
  · -- x - (-k*y) = x + k*y
    split at h
    · next c d =>
      obtain ⟨_, hk, rfl⟩ := Option.map_eq_some_iff.mp h
      obtain ⟨k, rfl, rfl⟩ := eq_of_flip? hk
      obtain ⟨z, w, hz, hw, rfl⟩ := value?_product_iff.mp hy
      obtain rfl : (k : F) = z := by simpa using hz
      have hflip := value?_product_iff.mpr ⟨-(k : F), w, value?_const_neg k, hw, rfl⟩
      exact value?_sum_iff.mpr ⟨x, -k * w, hx, hflip, by ring⟩
    · contradiction
  · -- x - (y*-k) = x + y*k
    split at h
    · next c d =>
      obtain ⟨_, hk, rfl⟩ := Option.map_eq_some_iff.mp h
      obtain ⟨k, rfl, rfl⟩ := eq_of_flip? hk
      obtain ⟨z, w, hz, hw, rfl⟩ := value?_product_iff.mp hy
      obtain rfl : (k : F) = w := by simpa using hw
      have hflip := value?_product_iff.mpr ⟨z, -(k : F), hz, value?_const_neg k, rfl⟩
      exact value?_sum_iff.mpr ⟨x, z * -k, hx, hflip, by ring⟩
    · contradiction
  · -- x - (-y) = x + y
    split at h
    · next c =>
      obtain rfl := Option.some.inj h
      obtain ⟨z, hz, rfl⟩ := value?_neg_iff.mp hy
      exact value?_sum_iff.mpr ⟨x, z, hx, hz, (sub_neg_eq_add x z).symm⟩
    · contradiction
  · -- 0 - x = -x
    obtain ⟨hz, rfl⟩ : a.isZero = true ∧ neg b = r := by simpa using h
    obtain rfl := eq_zero_of_isZero hz hx
    exact value?_neg_iff.mpr ⟨y, hy, (zero_sub y).symm⟩

/-! ## Products -/

/-- Merging two coefficients keeps the value of the product, whichever of its operands is the
constant. -/
theorem scaleProduct?_value {k : Rat} {e r : Expr Rat} {y : F} (h : scaleProduct? k e = some r)
    (hy : e.value? I = some y) :
    r.value? I = some (k * y) := by
  obtain ⟨k', u, he, rfl⟩ := eq_product_of_scaleProduct? h
  rcases he with rfl | rfl <;> obtain ⟨z, w, hz, hw, rfl⟩ := value?_product_iff.mp hy
  · obtain rfl : (k' : F) = z := by simpa using hz
    exact value?_product_iff.mpr ⟨k * k', w, value?_const_mul k k', hw, by ring⟩
  · obtain rfl : (k' : F) = w := by simpa using hw
    exact value?_product_iff.mpr ⟨k * k', z, value?_const_mul k k', hz, by ring⟩

theorem mergeCoefficients?_sound (name : String) :
    Sound I .times ⟨name, mergeCoefficients?⟩ := by
  intro a b r h _ v hv
  obtain ⟨x, y, hx, hy, rfl⟩ := value?_product_iff.mp hv
  dsimp only at h
  unfold mergeCoefficients? at h
  split at h
  · contradiction
  · next k _ =>
    obtain rfl : (k : F) = x := by simpa using hx
    exact scaleProduct?_value h hy
  · next k _ =>
    obtain rfl : (k : F) = y := by simpa using hy
    rw [mul_comm]
    exact scaleProduct?_value h hx
  · contradiction

theorem products_sound : ∀ rule ∈ products, Sound I .times rule := by
  simp only [products, List.forall_mem_cons]
  refine ⟨?_, ?_, ?_, fold?_sound _ _, mergeCoefficients?_sound _, ?_, ?_, ?_, ?_, by simp⟩ <;>
    intro a b r h hkeeps v hv <;> obtain ⟨x, y, hx, hy, rfl⟩ := value?_product_iff.mp hv <;>
    dsimp only at h
  · -- 0 * x = 0
    obtain ⟨hz, rfl⟩ : (a.isZero = true ∨ b.isZero = true) ∧ nat 0 = r := by simpa using h
    rcases hz with hz | hz
    · obtain rfl := eq_zero_of_isZero hz hx
      rw [zero_mul]
      exact value?_zero
    · obtain rfl := eq_zero_of_isZero hz hy
      rw [mul_zero]
      exact value?_zero
  · -- 1 * x = x
    obtain ⟨ho, rfl⟩ : a.isOne = true ∧ b = r := by simpa using h
    obtain rfl := eq_one_of_isOne ho hx
    rwa [one_mul]
  · -- x * 1 = x
    obtain ⟨ho, rfl⟩ : b.isOne = true ∧ a = r := by simpa using h
    obtain rfl := eq_one_of_isOne ho hy
    rwa [mul_one]
  · -- A * (1/B) = A/B
    split at h
    · next c d =>
      obtain ⟨ho, rfl⟩ : c.isOne = true ∧ quotient a d = r := by simpa using h
      obtain ⟨z, w, hz, hw, hne, rfl⟩ := value?_quotient_iff.mp hy
      obtain rfl := eq_one_of_isOne ho hz
      exact value?_quotient_iff.mpr ⟨x, w, hx, hw, hne, by rw [mul_one_div]⟩
    · contradiction
  · -- (1/B) * A = A/B
    split at h
    · next c d =>
      obtain ⟨ho, rfl⟩ : c.isOne = true ∧ quotient b d = r := by simpa using h
      obtain ⟨z, w, hz, hw, hne, rfl⟩ := value?_quotient_iff.mp hx
      obtain rfl := eq_one_of_isOne ho hz
      exact value?_quotient_iff.mpr ⟨y, w, hy, hw, hne, by rw [mul_comm, mul_one_div]⟩
    · contradiction
  · -- (B/A) * A = B
    split at h
    · next c d =>
      obtain ⟨rfl, rfl⟩ : d = b ∧ c = r := by simpa using h
      obtain ⟨z, w, hz, hw, hne, rfl⟩ := value?_quotient_iff.mp hx
      obtain rfl : w = y := Option.some.inj (hw.symm.trans hy)
      rwa [div_mul_cancel₀ z hne]
    · contradiction
  · -- A * (B/A) = B
    split at h
    · next c d =>
      obtain ⟨rfl, rfl⟩ : d = a ∧ c = r := by simpa using h
      obtain ⟨z, w, hz, hw, hne, rfl⟩ := value?_quotient_iff.mp hy
      obtain rfl : w = x := Option.some.inj (hw.symm.trans hx)
      rwa [mul_div_cancel₀ z hne]
    · contradiction

/-! ## Quotients -/

theorem quotients_sound : ∀ rule ∈ quotients, Sound I .divide rule := by
  simp only [quotients, List.forall_mem_cons]
  refine ⟨?_, ?_, fold?_sound _ _, ?_, ?_, ?_, ?_, ?_, ?_, by simp⟩ <;>
    intro a b r h hkeeps v hv <;> obtain ⟨x, y, hx, hy, hne, rfl⟩ := value?_quotient_iff.mp hv <;>
    dsimp only at h
  · -- x / 1 = x
    obtain ⟨ho, rfl⟩ : b.isOne = true ∧ a = r := by simpa using h
    obtain rfl := eq_one_of_isOne ho hy
    rwa [div_one]
  · -- 0 / x = 0
    obtain ⟨⟨hz, -⟩, rfl⟩ : (a.isZero = true ∧ b.isZero = false) ∧ nat 0 = r := by simpa using h
    obtain rfl := eq_zero_of_isZero hz hx
    rw [zero_div]
    exact value?_zero
  · -- x / x = 1
    obtain ⟨⟨rfl, -⟩, rfl⟩ : (a = b ∧ b.isZero = false) ∧ nat 1 = r := by simpa using h
    obtain rfl : x = y := Option.some.inj (hx.symm.trans hy)
    rw [div_self hne]
    exact value?_one
  · -- (A*B)/A = B
    split at h
    · next c d =>
      obtain ⟨rfl, rfl⟩ : c = b ∧ d = r := by simpa using h
      obtain ⟨z, w, hz, hw, rfl⟩ := value?_product_iff.mp hx
      obtain rfl : z = y := Option.some.inj (hz.symm.trans hy)
      rwa [mul_div_cancel_left₀ w hne]
    · contradiction
  · -- (A*B)/B = A
    split at h
    · next c d =>
      obtain ⟨rfl, rfl⟩ : d = b ∧ c = r := by simpa using h
      obtain ⟨z, w, hz, hw, rfl⟩ := value?_product_iff.mp hx
      obtain rfl : w = y := Option.some.inj (hw.symm.trans hy)
      rwa [mul_div_cancel_right₀ z hne]
    · contradiction
  · -- (A^B)/A = A^(B - 1)
    split at h
    · next c d =>
      obtain ⟨rfl, rfl⟩ : c = b ∧ power c (difference d (nat 1)) = r := by simpa using h
      obtain ⟨z, n, hz, hn, hpow⟩ := value?_binary_eq_some.mp hx
      obtain rfl : z = y := Option.some.inj (hz.symm.trans hy)
      have hexp := value?_difference_iff.mpr ⟨n, 1, hn, value?_one, rfl⟩
      exact value?_binary_eq_some.mpr ⟨z, n - 1, hz, hexp, power_sub_one hne hpow⟩
    · contradiction
  · -- (Y/X^N)/X = Y/X^(N + 1)
    split at h
    · next c d n =>
      obtain ⟨rfl, rfl⟩ : d = b ∧ quotient c (power b (sum n (nat 1))) = r := by simpa using h
      obtain ⟨z, w, hz, hw, hne', rfl⟩ := value?_quotient_iff.mp hx
      obtain ⟨u, m, hu, hm, hpow⟩ := value?_binary_eq_some.mp hw
      obtain rfl : u = y := Option.some.inj (hu.symm.trans hy)
      have hexp := value?_sum_iff.mpr ⟨m, 1, hm, value?_one, rfl⟩
      have hden := value?_binary_eq_some.mpr ⟨u, m + 1, hu, hexp, power_add_one hne hpow⟩
      exact value?_quotient_iff.mpr ⟨z, w * u, hz, hden, mul_ne_zero hne' hne, by rw [div_div]⟩
    · contradiction
  · -- (Y/X)/X = Y/X^2
    split at h
    · next c d =>
      obtain ⟨rfl, rfl⟩ : d = b ∧ quotient c (power b (nat 2)) = r := by simpa using h
      obtain ⟨z, w, hz, hw, -, rfl⟩ := value?_quotient_iff.mp hx
      obtain rfl : w = y := Option.some.inj (hw.symm.trans hy)
      refine value?_quotient_iff.mpr
        ⟨z, w ^ 2, hz, value?_power_nat hw Nat.two_pos, pow_ne_zero 2 hne, ?_⟩
      rw [pow_two, div_div]
    · contradiction

/-! ## Powers -/

theorem powers_sound : ∀ rule ∈ powers, Sound I .power rule := by
  simp only [powers, List.forall_mem_cons]
  refine ⟨?_, ?_, fold?_sound _ _, ?_, by simp⟩ <;>
    intro a b r h hkeeps v hv <;> obtain ⟨x, n, hx, hn, hpow⟩ := value?_binary_eq_some.mp hv <;>
    dsimp only at h
  · -- x^1 = x
    obtain ⟨ho, rfl⟩ : b.isOne = true ∧ a = r := by simpa using h
    obtain rfl := eq_one_of_isOne ho hn
    have hone := power_natCast (I := I) x Nat.one_pos
    rw [Nat.cast_one, pow_one] at hone
    rw [hx, ← hone, hpow]
  · -- x^0 = 1
    obtain ⟨hz, rfl⟩ : b.isZero = true ∧ nat 1 = r := by simpa using h
    obtain rfl := eq_zero_of_isZero hz hn
    rw [power_zero hpow]
    exact value?_one
  · -- (a^b)^c = a^(b*c)
    split at h
    · next c d =>
      obtain rfl := Option.some.inj h
      exact hkeeps rfl c d b rfl v hv
    · contradiction

/-! ## All rules -/

theorem forOperator_sound (op : Operator) : ∀ rule ∈ forOperator op, Sound I op rule := by
  cases op with
  | plus => exact sums_sound
  | minus => exact differences_sound
  | times => exact products_sound
  | divide => exact quotients_sound
  | power => exact powers_sound

end Rule

namespace Expr

variable [CharZero F]

/-- What the first rule that matches a node makes of it has the node's value, if nested powers keep
theirs. -/
theorem replacement?_refines {e r : Expr Rat} {name : String}
    (h : e.replacement? = some (name, r)) (hkeeps : Rule.KeepsNestedPowers I name r) :
    Refines I e r := by
  unfold replacement? at h
  split at h
  · next op a b => exact Rule.firstMatch?_refines (Rule.forOperator_sound op) h hkeeps
  · next k =>
    obtain ⟨-, rfl⟩ : _ ∧ const (-k) = r := by simpa using h
    intro v hv
    obtain ⟨x, hx, rfl⟩ := value?_neg_iff.mp hv
    obtain rfl : (k : F) = x := by simpa using hx
    exact value?_const_neg k
  · next a =>
    obtain ⟨-, rfl⟩ : _ ∧ a = r := by simpa using h
    intro v hv
    obtain ⟨x, hx, rfl⟩ := value?_neg_iff.mp hv
    obtain ⟨y, hy, rfl⟩ := value?_neg_iff.mp hx
    rwa [neg_neg]
  · contradiction

end Expr

end SymbolicCalculus
