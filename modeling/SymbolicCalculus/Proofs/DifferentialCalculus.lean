import Mathlib.Algebra.CharZero.Defs
import Mathlib.Algebra.Field.Basic
import Mathlib.RingTheory.Derivation.Basic
import Mathlib.Tactic.FieldSimp
import Mathlib.Tactic.LinearCombination
import SymbolicCalculus.Derivative
import SymbolicCalculus.Proofs.Refinement

/-!
# Expressions in a field with a derivation

The algebra that differentiation rests on: a field of characteristic zero with a derivation, and
functions in it that have the derivatives of the logarithm, the sine and the cosine. An expression
has a value where no division by zero and no power with an exponent that is not an integer is met.
An expression that does not mention the variable has a value whose derivative is zero:
`Expr.deriv_value_eq_zero`.
-/

namespace SymbolicCalculus

/-- A field with a derivation, constants in it, and partial functions with the derivatives of the
logarithm, the sine and the cosine. The constants need to be exact only up to ten, which are those
that differentiation itself writes. -/
structure Calculus (α F : Type) [NatCast α] [Field F] where
  deriv : Derivation ℤ F F
  const : α → F
  ln : F → Option F
  sine : F → Option F
  cosine : F → Option F
  const_natCast : ∀ n : Nat, n ≤ 10 → const n = n
  deriv_const : ∀ a, deriv (const a) = 0
  deriv_ln : ∀ {u l}, ln u = some l → deriv l = deriv u / u
  deriv_sine : ∀ {u s}, sine u = some s → ∃ c, cosine u = some c ∧ deriv s = c * deriv u
  deriv_cosine : ∀ {u c}, cosine u = some c → ∃ s, sine u = some s ∧ deriv c = -s * deriv u
  sine_sq_add_cosine_sq : ∀ {u s c}, sine u = some s → cosine u = some c → s ^ 2 + c ^ 2 = 1

namespace Calculus

variable {F : Type} [Field F]

open Classical in
/-- A quotient, unless the divisor is zero. -/
noncomputable def divide (x y : F) : Option F :=
  if y = 0 then none else some (x / y)

open Classical in
/-- A power with an integer exponent, unless it is a negative power of zero. -/
noncomputable def power (x y : F) : Option F :=
  if h : ∃ n : Int, y = n ∧ (x ≠ 0 ∨ 0 ≤ n) then some (x ^ h.choose) else none

/-- The result of an operation, if it has one. -/
noncomputable def operate : Operator → F → F → Option F
  | .plus, x, y => some (x + y)
  | .minus, x, y => some (x - y)
  | .times, x, y => some (x * y)
  | .divide, x, y => divide x y
  | .power, x, y => power x y

theorem divide_eq_some {x y v : F} : divide x y = some v ↔ y ≠ 0 ∧ x / y = v := by
  unfold divide
  split <;> simp_all

theorem power_eq_some [CharZero F] {x y v : F} :
    power x y = some v ↔ ∃ n : Int, y = n ∧ (x ≠ 0 ∨ 0 ≤ n) ∧ x ^ n = v := by
  unfold power
  constructor
  · intro h
    split at h
    · next hn => exact ⟨hn.choose, hn.choose_spec.1, hn.choose_spec.2, Option.some.inj h⟩
    · contradiction
  · rintro ⟨n, hy, hn, rfl⟩
    have hex : ∃ n : Int, y = n ∧ (x ≠ 0 ∨ 0 ≤ n) := ⟨n, hy, hn⟩
    -- characteristic zero: the exponent is one integer only
    have heq : hex.choose = n := Int.cast_injective (hex.choose_spec.1.symm.trans hy)
    rw [dif_pos hex, heq]

/-! ## Meaning -/

variable {α : Type} [NatCast α]

/-- The parameter `p` is the variable, and the others are constants. -/
def IsVariable (C : Calculus α F) (param : String → Option F) (p : String) : Prop :=
  ∀ q x, param q = some x → C.deriv x = if q = p then 1 else 0

/-- The value of a call. Logarithms to a base are quotients of natural logarithms, and the tangent
is the quotient of the sine and the cosine. -/
noncomputable def call (C : Calculus α F) : Builtin → List F → Option F
  | .log, [u] => C.ln u
  | .log, [u, b] => do
    let x ← C.ln u
    let y ← C.ln b
    divide x y
  | .log10, [u] => do
    let x ← C.ln u
    let y ← C.ln 10
    divide x y
  | .sine, [u] => C.sine u
  | .cosine, [u] => C.cosine u
  | .tangent, [u] => do
    let s ← C.sine u
    let c ← C.cosine u
    divide s c
  | _, _ => none

/-- What expressions stand for, given the values of the parameters. -/
noncomputable def meaning (C : Calculus α F) (param : String → Option F) : Interpretation α F where
  param := param
  const := C.const
  neg := (-·)
  operate := operate
  call := C.call

/-! ## Derivatives of calls -/

section calls

variable {C : Calculus α F} {u v b : F}

theorem deriv_ten : C.deriv 10 = 0 := by
  have h := C.deriv.map_natCast 10
  rwa [Nat.cast_ofNat] at h

/-- A quotient of two logarithms, of which the second is a constant. -/
theorem deriv_ln_div_ln {l t : F} (hl : C.ln u = some l) (ht : C.ln b = some t)
    (hb : C.deriv b = 0) : C.deriv (l / t) = C.deriv u / (u * t) := by
  have hconst : C.deriv t = 0 := by rw [C.deriv_ln ht, hb, zero_div]
  rw [C.deriv.leibniz_div_const l t hconst, C.deriv_ln hl, smul_eq_mul, div_mul_eq_div_div,
    div_eq_mul_inv (C.deriv u / u) t, mul_comm]

theorem deriv_call_log_base (h : C.call .log [u, b] = some v) (hb : C.deriv b = 0) :
    ∃ t, C.ln b = some t ∧ C.deriv v = C.deriv u / (u * t) := by
  obtain ⟨l, hl, h⟩ := Option.bind_eq_some_iff.mp h
  obtain ⟨t, ht, h⟩ := Option.bind_eq_some_iff.mp h
  obtain ⟨-, rfl⟩ := divide_eq_some.mp h
  exact ⟨t, ht, deriv_ln_div_ln hl ht hb⟩

theorem deriv_call_log10 (h : C.call .log10 [u] = some v) :
    ∃ t, C.ln 10 = some t ∧ C.deriv v = C.deriv u / (u * t) :=
  deriv_call_log_base h deriv_ten

theorem deriv_call_tangent (h : C.call .tangent [u] = some v) :
    ∃ c, C.cosine u = some c ∧ C.deriv v = C.deriv u / c ^ 2 := by
  obtain ⟨s, hs, h⟩ := Option.bind_eq_some_iff.mp h
  obtain ⟨c, hc, h⟩ := Option.bind_eq_some_iff.mp h
  obtain ⟨hne, rfl⟩ := divide_eq_some.mp h
  obtain ⟨c', hc', hDs⟩ := C.deriv_sine hs
  obtain rfl : c' = c := Option.some.inj (hc'.symm.trans hc)
  obtain ⟨s', hs', hDc⟩ := C.deriv_cosine hc
  obtain rfl : s' = s := Option.some.inj (hs'.symm.trans hs)
  have hone := C.sine_sq_add_cosine_sq hs hc
  refine ⟨c', hc, ?_⟩
  rw [C.deriv.leibniz_div, hDs, hDc, smul_eq_mul, smul_eq_mul, smul_eq_mul]
  field_simp
  linear_combination C.deriv u * hone

/-- A call with a constant argument is a constant. -/
theorem deriv_call_eq_zero {f : Builtin} (h : C.call f [u] = some v) (hu : C.deriv u = 0) :
    C.deriv v = 0 := by
  cases f with
  | log => rw [C.deriv_ln h, hu, zero_div]
  | log10 =>
    obtain ⟨t, -, hv⟩ := deriv_call_log10 h
    rw [hv, hu, zero_div]
  | sine =>
    obtain ⟨c, -, hv⟩ := C.deriv_sine h
    rw [hv, hu, mul_zero]
  | cosine =>
    obtain ⟨s, -, hv⟩ := C.deriv_cosine h
    rw [hv, hu, mul_zero]
  | tangent =>
    obtain ⟨c, -, hv⟩ := deriv_call_tangent h
    rw [hv, hu, zero_div]

/-- The logarithm is the only function with a second argument. -/
theorem eq_log_of_call {f : Builtin} (h : C.call f [u, b] = some v) : f = .log := by
  cases f with
  | log => rfl
  | _ => contradiction

end calls

end Calculus

namespace Expr

variable {α F : Type} [NatCast α] [Field F] {C : Calculus α F}
  {param : String → Option F}

/-! ## Values of nodes -/

section nodes

variable {a b : Expr α} {v : F}

theorem calculus_value_sum :
    (sum a b).value? (C.meaning param) = some v ↔
      ∃ x y, a.value? (C.meaning param) = some x ∧ b.value? (C.meaning param) = some y ∧
        x + y = v := by
  rw [value?_binary_eq_some]
  simp only [Calculus.meaning, Calculus.operate, Option.some.injEq]

theorem calculus_value_difference :
    (difference a b).value? (C.meaning param) = some v ↔
      ∃ x y, a.value? (C.meaning param) = some x ∧ b.value? (C.meaning param) = some y ∧
        x - y = v := by
  rw [value?_binary_eq_some]
  simp only [Calculus.meaning, Calculus.operate, Option.some.injEq]

theorem calculus_value_product :
    (product a b).value? (C.meaning param) = some v ↔
      ∃ x y, a.value? (C.meaning param) = some x ∧ b.value? (C.meaning param) = some y ∧
        x * y = v := by
  rw [value?_binary_eq_some]
  simp only [Calculus.meaning, Calculus.operate, Option.some.injEq]

theorem calculus_value_quotient :
    (quotient a b).value? (C.meaning param) = some v ↔
      ∃ x y, a.value? (C.meaning param) = some x ∧ b.value? (C.meaning param) = some y ∧
        y ≠ 0 ∧ x / y = v := by
  rw [value?_binary_eq_some]
  simp only [Calculus.meaning, Calculus.operate, Calculus.divide_eq_some]

theorem calculus_value_power [CharZero F] :
    (power a b).value? (C.meaning param) = some v ↔
      ∃ (x : F) (n : Int), a.value? (C.meaning param) = some x ∧
        b.value? (C.meaning param) = some (n : F) ∧ (x ≠ 0 ∨ 0 ≤ n) ∧ x ^ n = v := by
  rw [value?_binary_eq_some]
  simp only [Calculus.meaning, Calculus.operate, Calculus.power_eq_some]
  constructor
  · rintro ⟨x, _, hx, hy, n, rfl, hn, rfl⟩
    exact ⟨x, n, hx, hy, hn, rfl⟩
  · rintro ⟨x, n, hx, hy, hn, rfl⟩
    exact ⟨x, n, hx, hy, n, rfl, hn, rfl⟩

theorem calculus_value_neg :
    (neg a).value? (C.meaning param) = some v ↔
      ∃ x, a.value? (C.meaning param) = some x ∧ -x = v :=
  value?_neg_eq_some

/-- The numbers that differentiation writes are exact. -/
theorem calculus_value_nat {n : Nat} (hn : n ≤ 10) :
    (nat n : Expr α).value? (C.meaning param) = some (n : F) :=
  congrArg some (C.const_natCast n hn)

end nodes

/-! ## Constants -/

/-- The value of an expression that does not mention the variable has the derivative zero. -/
theorem deriv_value_eq_zero [CharZero F] {p : String} (hp : C.IsVariable param p)
    {e : Expr α} {v : F} (he : e.dependsOn p = false)
    (hv : e.value? (C.meaning param) = some v) : C.deriv v = 0 := by
  induction e generalizing v with
  | param q =>
    have hne : q ≠ p := by simpa [dependsOn] using he
    rw [hp q v hv, if_neg hne]
  | const k =>
    obtain rfl : C.const k = v := Option.some.inj hv
    exact C.deriv_const k
  | binary op a b iha ihb =>
    obtain ⟨ha, hb⟩ : a.dependsOn p = false ∧ b.dependsOn p = false := by
      simpa [dependsOn] using he
    cases op with
    | plus =>
      obtain ⟨x, y, hx, hy, rfl⟩ := calculus_value_sum.mp hv
      rw [map_add, iha ha hx, ihb hb hy, add_zero]
    | minus =>
      obtain ⟨x, y, hx, hy, rfl⟩ := calculus_value_difference.mp hv
      rw [map_sub, iha ha hx, ihb hb hy, sub_zero]
    | times =>
      obtain ⟨x, y, hx, hy, rfl⟩ := calculus_value_product.mp hv
      rw [C.deriv.leibniz, iha ha hx, ihb hb hy, smul_zero, smul_zero,
        add_zero]
    | divide =>
      obtain ⟨x, y, hx, hy, -, rfl⟩ := calculus_value_quotient.mp hv
      rw [C.deriv.leibniz_div, iha ha hx, ihb hb hy, smul_zero, smul_zero,
        sub_zero, smul_zero]
    | power =>
      obtain ⟨x, n, hx, -, -, rfl⟩ := calculus_value_power.mp hv
      rw [C.deriv.leibniz_zpow, iha ha hx, smul_zero, smul_zero]
  | neg a ih =>
    obtain ⟨x, hx, rfl⟩ := calculus_value_neg.mp hv
    rw [map_neg, ih he hx, neg_zero]
  | call₀ f => cases f <;> contradiction
  | call₁ f x ih =>
    obtain ⟨u, hu, hv⟩ := value?_call₁_eq_some.mp hv
    exact Calculus.deriv_call_eq_zero hv (ih he hu)
  | call₂ f x y ihx ihy =>
    obtain ⟨hx, hy⟩ : x.dependsOn p = false ∧ y.dependsOn p = false := by
      simpa [dependsOn] using he
    obtain ⟨u, b, hu, hb, hv⟩ := value?_call₂_eq_some.mp hv
    obtain rfl := Calculus.eq_log_of_call hv
    obtain ⟨t, -, hv⟩ := Calculus.deriv_call_log_base hv (ihy hy hb)
    rw [hv, ihx hx hu, zero_div]

end Expr

end SymbolicCalculus
