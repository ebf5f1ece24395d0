import SymbolicCalculus.Proofs.ElementaryField
import SymbolicCalculus.Proofs.Outcome
import SymbolicCalculus.Proofs.TemplateFilling

/-!
# The derivative is the derivative

`Expr.derivative_value`: in a field with a derivation, where an expression and its symbolic
derivative have values, the second is the derivative of the first. The induction follows the rules
of differentiation. The outer derivative of a call is a template that the arguments were put into,
which says what it should only if an argument is not mistaken for a placeholder: the first argument
must not mention the second placeholder, since the placeholders are filled one after the other.
-/

namespace SymbolicCalculus

variable {α : Type}

/-! ## Templates with their arguments -/

variable [NatCast α]

namespace Builtin

open SymbolicCalculus.Expr

theorem outerDerivative_log (x : Expr α) : log.outerDerivative [x] = quotient (nat 1) x := by
  simp [outerDerivative, fill, derivativeTemplate, substitute]

theorem outerDerivative_log_base {x : Expr α} (hx : x.dependsOn (placeholder 1) = false)
    (b : Expr α) :
    log.outerDerivative [x, b] = quotient (nat 1) (product x (call₁ log b)) := by
  rw [outerDerivative_log_base_eq, substitute_eq_self hx]

theorem outerDerivative_log10 (x : Expr α) :
    log10.outerDerivative [x] = quotient (nat 1) (product x (call₁ log (nat 10))) := by
  simp [outerDerivative, fill, derivativeTemplate, substitute]

theorem outerDerivative_sine (x : Expr α) : sine.outerDerivative [x] = call₁ cosine x := by
  simp [outerDerivative, fill, derivativeTemplate, substitute]

theorem outerDerivative_cosine (x : Expr α) :
    cosine.outerDerivative [x] = neg (call₁ sine x) := by
  simp [outerDerivative, fill, derivativeTemplate, substitute]

theorem outerDerivative_tangent (x : Expr α) :
    tangent.outerDerivative [x] = quotient (nat 1) (power (call₁ cosine x) (nat 2)) := by
  simp [outerDerivative, fill, derivativeTemplate, substitute]

end Builtin

namespace Expr

variable {F : Type} [Field F] {C : Calculus α F} {param : String → Option F}

/-! ## The chain rule -/

/-- The value of a reciprocal. -/
theorem calculus_value_reciprocal {a : Expr α} {v : F} :
    (quotient (nat 1) a).value? (C.meaning param) = some v ↔
      ∃ x, a.value? (C.meaning param) = some x ∧ x ≠ 0 ∧ 1 / x = v := by
  rw [calculus_value_quotient, calculus_value_nat (by omega), Nat.cast_one]
  constructor
  · rintro ⟨_, x, ⟨rfl⟩, hx, hne, rfl⟩
    exact ⟨x, hx, hne, rfl⟩
  · rintro ⟨x, hx, hne, rfl⟩
    exact ⟨1, x, rfl, hx, hne, rfl⟩

/-- The value of a square. -/
theorem calculus_value_square [CharZero F] {a : Expr α} {x v : F}
    (hx : a.value? (C.meaning param) = some x)
    (hv : (power a (nat 2)).value? (C.meaning param) = some v) : x ^ 2 = v := by
  obtain ⟨x', n, hx', hn, -, rfl⟩ := calculus_value_power.mp hv
  obtain rfl : x = x' := Option.some.inj (hx.symm.trans hx')
  rw [calculus_value_nat (by omega)] at hn
  obtain rfl : ((2 : Nat) : Int) = n := by exact_mod_cast (Option.some.inj hn : ((2 : Nat) : F) = n)
  rw [zpow_natCast]

/-- The outer derivative of a call with one argument, times the derivative of the argument. -/
theorem outerDerivative_value [CharZero F] {f : Builtin} {x : Expr α} {u v o : F}
    (hu : x.value? (C.meaning param) = some u) (hv : C.call f [u] = some v)
    (ho : (f.outerDerivative [x]).value? (C.meaning param) = some o) :
    C.deriv v = o * C.deriv u := by
  cases f with
  | log =>
    rw [Builtin.outerDerivative_log] at ho
    obtain ⟨u', hu', -, rfl⟩ := calculus_value_reciprocal.mp ho
    obtain rfl : u = u' := Option.some.inj (hu.symm.trans hu')
    rw [C.deriv_ln hv, one_div_mul_eq_div]
  | log10 =>
    rw [Builtin.outerDerivative_log10] at ho
    obtain ⟨_, hprod, -, rfl⟩ := calculus_value_reciprocal.mp ho
    obtain ⟨u', t, hu', ht, rfl⟩ := calculus_value_product.mp hprod
    obtain rfl : u = u' := Option.some.inj (hu.symm.trans hu')
    obtain ⟨ten, hten, ht⟩ := value?_call₁_eq_some.mp ht
    rw [calculus_value_nat (by omega), Nat.cast_ofNat] at hten
    obtain rfl : 10 = ten := Option.some.inj hten
    obtain ⟨t', ht', hv⟩ := Calculus.deriv_call_log10 hv
    obtain rfl : t' = t := Option.some.inj (ht'.symm.trans ht)
    rw [hv, one_div_mul_eq_div]
  | sine =>
    rw [Builtin.outerDerivative_sine] at ho
    obtain ⟨u', hu', ho⟩ := value?_call₁_eq_some.mp ho
    obtain rfl : u = u' := Option.some.inj (hu.symm.trans hu')
    obtain ⟨c, hc, hv⟩ := C.deriv_sine hv
    obtain rfl : c = o := Option.some.inj (hc.symm.trans ho)
    exact hv
  | cosine =>
    rw [Builtin.outerDerivative_cosine] at ho
    obtain ⟨s, hs, rfl⟩ := calculus_value_neg.mp ho
    obtain ⟨u', hu', hs⟩ := value?_call₁_eq_some.mp hs
    obtain rfl : u = u' := Option.some.inj (hu.symm.trans hu')
    obtain ⟨s', hs', hv⟩ := C.deriv_cosine hv
    obtain rfl : s' = s := Option.some.inj (hs'.symm.trans hs)
    exact hv
  | tangent =>
    rw [Builtin.outerDerivative_tangent] at ho
    obtain ⟨_, hpow, -, rfl⟩ := calculus_value_reciprocal.mp ho
    obtain ⟨c, hc, hv⟩ := Calculus.deriv_call_tangent hv
    have hcos : (call₁ .cosine x).value? (C.meaning param) = some c :=
      value?_call₁_eq_some.mpr ⟨u, hu, hc⟩
    obtain rfl := calculus_value_square hcos hpow
    rw [hv, one_div_mul_eq_div]

/-- The outer derivative of a logarithm to a base that is constant. -/
theorem outerDerivative_log_base_value {x b : Expr α} {u w v o : F}
    (hx : x.dependsOn (Builtin.placeholder 1) = false)
    (hu : x.value? (C.meaning param) = some u) (hw : b.value? (C.meaning param) = some w)
    (hb : C.deriv w = 0) (hv : C.call .log [u, w] = some v)
    (ho : (Builtin.log.outerDerivative [x, b]).value? (C.meaning param) = some o) :
    C.deriv v = o * C.deriv u := by
  rw [Builtin.outerDerivative_log_base hx] at ho
  obtain ⟨_, hprod, -, rfl⟩ := calculus_value_reciprocal.mp ho
  obtain ⟨u', t, hu', ht, rfl⟩ := calculus_value_product.mp hprod
  obtain rfl : u = u' := Option.some.inj (hu.symm.trans hu')
  obtain ⟨w', hw', ht⟩ := value?_call₁_eq_some.mp ht
  obtain rfl : w = w' := Option.some.inj (hw.symm.trans hw')
  obtain ⟨t', ht', hv⟩ := Calculus.deriv_call_log_base hv hb
  obtain rfl : t' = t := Option.some.inj (ht'.symm.trans ht)
  rw [hv, one_div_mul_eq_div]

/-! ## Rules -/

section rules

variable {p : String} {a b d : Expr α}

theorem derivative_neg_eq_ok :
    (neg a).derivative p = .ok d ↔ ∃ a', a.derivative p = .ok a' ∧ neg a' = d :=
  return_eq_ok

theorem derivative_sum_eq_ok :
    (sum a b).derivative p = .ok d ↔
      ∃ a', a.derivative p = .ok a' ∧ ∃ b', b.derivative p = .ok b' ∧ sum a' b' = d :=
  return_both_eq_ok

theorem derivative_difference_eq_ok :
    (difference a b).derivative p = .ok d ↔
      ∃ a', a.derivative p = .ok a' ∧ ∃ b', b.derivative p = .ok b' ∧ difference a' b' = d :=
  return_both_eq_ok

theorem derivative_product_eq_ok :
    (product a b).derivative p = .ok d ↔
      ∃ a', a.derivative p = .ok a' ∧ ∃ b', b.derivative p = .ok b' ∧
        sum (product a' b) (product a b') = d :=
  return_both_eq_ok

theorem derivative_quotient_eq_ok :
    (quotient a b).derivative p = .ok d ↔
      ∃ a', a.derivative p = .ok a' ∧ ∃ b', b.derivative p = .ok b' ∧
        quotient (difference (product a' b) (product a b')) (power b (nat 2)) = d :=
  return_both_eq_ok

theorem derivative_power_eq_ok {n : Expr α} :
    (power a n).derivative p = .ok d ↔
      n.dependsOn p = false ∧ ∃ a', a.derivative p = .ok a' ∧
        product (product n (power a (difference n (nat 1)))) a' = d :=
  check_eq_ok.trans (and_congr_right' return_eq_ok)

theorem derivative_call₁_eq_ok {f : Builtin} {x : Expr α} :
    (call₁ f x).derivative p = .ok d ↔
      ∃ x', x.derivative p = .ok x' ∧ product (f.outerDerivative [x]) x' = d :=
  return_eq_ok

theorem derivative_call₂_eq_ok {f : Builtin} {x base : Expr α} :
    (call₂ f x base).derivative p = .ok d ↔
      base.dependsOn p = false ∧ ∃ x', x.derivative p = .ok x' ∧
        product (f.outerDerivative [x, base]) x' = d :=
  check_eq_ok.trans (and_congr_right' return_eq_ok)

end rules

/-! ## Values of the rules -/

section values

variable {a b a' b' : Expr α} {x y w : F}

/-- The product rule. -/
theorem product_rule_value (hx : a.value? (C.meaning param) = some x)
    (hy : b.value? (C.meaning param) = some y)
    (ha : ∀ {x'}, a'.value? (C.meaning param) = some x' → x' = C.deriv x)
    (hb : ∀ {y'}, b'.value? (C.meaning param) = some y' → y' = C.deriv y)
    (hw : (sum (product a' b) (product a b')).value? (C.meaning param) = some w) :
    w = C.deriv (x * y) := by
  obtain ⟨_, _, hl, hr, rfl⟩ := calculus_value_sum.mp hw
  obtain ⟨x', y₁, hx', hy₁, rfl⟩ := calculus_value_product.mp hl
  obtain ⟨x₁, y', hx₁, hy', rfl⟩ := calculus_value_product.mp hr
  obtain rfl : y = y₁ := Option.some.inj (hy.symm.trans hy₁)
  obtain rfl : x = x₁ := Option.some.inj (hx.symm.trans hx₁)
  rw [C.deriv.leibniz, ha hx', hb hy', smul_eq_mul, smul_eq_mul, mul_comm y, add_comm]

/-- The quotient rule. -/
theorem quotient_rule_value [CharZero F] (hx : a.value? (C.meaning param) = some x)
    (hy : b.value? (C.meaning param) = some y) (hne : y ≠ 0)
    (ha : ∀ {x'}, a'.value? (C.meaning param) = some x' → x' = C.deriv x)
    (hb : ∀ {y'}, b'.value? (C.meaning param) = some y' → y' = C.deriv y)
    (hw : (quotient (difference (product a' b) (product a b')) (power b (nat 2))).value?
      (C.meaning param) = some w) :
    w = C.deriv (x / y) := by
  obtain ⟨_, _, hnum, hden, -, rfl⟩ := calculus_value_quotient.mp hw
  obtain ⟨_, _, hl, hr, rfl⟩ := calculus_value_difference.mp hnum
  obtain ⟨x', y₁, hx', hy₁, rfl⟩ := calculus_value_product.mp hl
  obtain ⟨x₁, y', hx₁, hy', rfl⟩ := calculus_value_product.mp hr
  obtain rfl : y = y₁ := Option.some.inj (hy.symm.trans hy₁)
  obtain rfl : x = x₁ := Option.some.inj (hx.symm.trans hx₁)
  have hsquare := calculus_value_square hy hden
  rw [C.deriv.leibniz_div, ha hx', hb hy', ← hsquare, smul_eq_mul, smul_eq_mul, smul_eq_mul]
  field_simp

/-- The power rule. The exponent is written twice, once as a factor and once less one. -/
theorem power_rule_value [CharZero F] {n : Int} (hx : a.value? (C.meaning param) = some x)
    (hn : b.value? (C.meaning param) = some (n : F))
    (ha : ∀ {x'}, a'.value? (C.meaning param) = some x' → x' = C.deriv x)
    (hw : (product (product b (power a (difference b (nat 1)))) a').value?
      (C.meaning param) = some w) :
    w = C.deriv (x ^ n) := by
  obtain ⟨_, x', houter, hx', rfl⟩ := calculus_value_product.mp hw
  obtain ⟨n₁, _, hn₁, hpow, rfl⟩ := calculus_value_product.mp houter
  obtain ⟨x₁, m, hx₁, hm, -, rfl⟩ := calculus_value_power.mp hpow
  obtain ⟨n₂, _, hn₂, hone, hm⟩ := calculus_value_difference.mp hm
  obtain rfl : (n : F) = n₁ := Option.some.inj (hn.symm.trans hn₁)
  obtain rfl : (n : F) = n₂ := Option.some.inj (hn.symm.trans hn₂)
  obtain rfl : x = x₁ := Option.some.inj (hx.symm.trans hx₁)
  rw [calculus_value_nat (by omega), Nat.cast_one] at hone
  obtain rfl := Option.some.inj hone
  obtain rfl : n - 1 = m := by exact_mod_cast hm
  rw [C.deriv.leibniz_zpow, ha hx', smul_eq_mul, zsmul_eq_mul, mul_assoc]

end values

/-! ## The derivative -/

/-- **The derivative is the derivative.** In a field of characteristic zero with a derivation that
is one at the variable `p` and zero at constants and at the other parameters: where an expression
and its derivative by `p` have values, the value of the derivative is the derivation of the value.
-/
theorem derivative_value [CharZero F] (C : Calculus α F) {param : String → Option F} {p : String}
    (hp : C.IsVariable param p) {e d : Expr α}
    (hplaceholder : e.dependsOn (Builtin.placeholder 1) = false) (hd : e.derivative p = .ok d)
    {v w : F} (hv : e.value? (C.meaning param) = some v)
    (hw : d.value? (C.meaning param) = some w) : w = C.deriv v := by
  induction e generalizing d v w with
  | param q =>
    obtain rfl : (if q = p then nat 1 else nat 0) = d := Except.ok.inj hd
    rw [hp q v hv]
    split at hw
    · next h =>
      rw [calculus_value_nat (by omega)] at hw
      rw [if_pos h, ← Option.some.inj hw, Nat.cast_one]
    · next h =>
      rw [calculus_value_nat (by omega)] at hw
      rw [if_neg h, ← Option.some.inj hw, Nat.cast_zero]
  | const k =>
    obtain rfl : nat 0 = d := Except.ok.inj hd
    rw [calculus_value_nat (by omega)] at hw
    rw [deriv_value_eq_zero hp (e := const k) rfl hv, ← Option.some.inj hw, Nat.cast_zero]
  | binary op a b iha ihb =>
    obtain ⟨ha, hb⟩ : a.dependsOn (Builtin.placeholder 1) = false ∧
        b.dependsOn (Builtin.placeholder 1) = false := by
      simpa [dependsOn] using hplaceholder
    cases op with
    | plus =>
      obtain ⟨a', ha', b', hb', rfl⟩ := derivative_sum_eq_ok.mp hd
      obtain ⟨x, y, hx, hy, rfl⟩ := calculus_value_sum.mp hv
      obtain ⟨x', y', hx', hy', rfl⟩ := calculus_value_sum.mp hw
      rw [map_add, iha ha ha' hx hx', ihb hb hb' hy hy']
    | minus =>
      obtain ⟨a', ha', b', hb', rfl⟩ := derivative_difference_eq_ok.mp hd
      obtain ⟨x, y, hx, hy, rfl⟩ := calculus_value_difference.mp hv
      obtain ⟨x', y', hx', hy', rfl⟩ := calculus_value_difference.mp hw
      rw [map_sub, iha ha ha' hx hx', ihb hb hb' hy hy']
    | times =>
      obtain ⟨a', ha', b', hb', rfl⟩ := derivative_product_eq_ok.mp hd
      obtain ⟨x, y, hx, hy, rfl⟩ := calculus_value_product.mp hv
      exact product_rule_value hx hy (iha ha ha' hx) (ihb hb hb' hy) hw
    | divide =>
      obtain ⟨a', ha', b', hb', rfl⟩ := derivative_quotient_eq_ok.mp hd
      obtain ⟨x, y, hx, hy, hne, rfl⟩ := calculus_value_quotient.mp hv
      exact quotient_rule_value hx hy hne (iha ha ha' hx) (ihb hb hb' hy) hw
    | power =>
      obtain ⟨-, a', ha', rfl⟩ := derivative_power_eq_ok.mp hd
      obtain ⟨x, n, hx, hn, -, rfl⟩ := calculus_value_power.mp hv
      exact power_rule_value hx hn (iha ha ha' hx) hw
  | neg a ih =>
    obtain ⟨a', ha', rfl⟩ := derivative_neg_eq_ok.mp hd
    obtain ⟨x, hx, rfl⟩ := calculus_value_neg.mp hv
    obtain ⟨x', hx', rfl⟩ := calculus_value_neg.mp hw
    rw [map_neg, ih hplaceholder ha' hx hx']
  | call₀ f => contradiction
  | call₁ f x ih =>
    obtain ⟨x', hx', rfl⟩ := derivative_call₁_eq_ok.mp hd
    obtain ⟨u, hu, hv⟩ := value?_call₁_eq_some.mp hv
    obtain ⟨o, u', ho, hu', rfl⟩ := calculus_value_product.mp hw
    rw [outerDerivative_value hu hv ho, ih hplaceholder hx' hu hu']
  | call₂ f x y ihx ihy =>
    obtain ⟨hx, -⟩ : x.dependsOn (Builtin.placeholder 1) = false ∧
        y.dependsOn (Builtin.placeholder 1) = false := by
      simpa [dependsOn] using hplaceholder
    obtain ⟨hconst, x', hx', rfl⟩ := derivative_call₂_eq_ok.mp hd
    obtain ⟨u, b, hu, hb, hv⟩ := value?_call₂_eq_some.mp hv
    obtain ⟨o, u', ho, hu', rfl⟩ := calculus_value_product.mp hw
    obtain rfl := Calculus.eq_log_of_call hv
    have hb' : C.deriv b = 0 := deriv_value_eq_zero hp hconst hb
    rw [outerDerivative_log_base_value hx hu hb hb' hv ho, ihx hx hx' hu hu']

open ElementaryField in
/-- The derivative of x² · sin x. -/
theorem derivative_value_of_product :
    let e : Expr ℚ := product (power (.param "x") (nat 2)) (call₁ .sine (.param "x"))
    ∃ d v w, e.dependsOn (Builtin.placeholder 1) = false ∧ e.derivative "x" = .ok d ∧
      e.value? (calculus.meaning parameters) = some v ∧
      d.value? (calculus.meaning parameters) = some w ∧ w = calculus.deriv v := by
  intro e
  have hx : (.param "x" : Expr ℚ).value? (calculus.meaning parameters) = some (generator 0) :=
    (if_pos rfl : parameters "x" = some (generator 0))
  have hone : (nat 1 : Expr ℚ).value? (calculus.meaning parameters) = some 1 := by
    rw [calculus_value_nat (by omega), Nat.cast_one]
  have htwo : (nat 2 : Expr ℚ).value? (calculus.meaning parameters) = some 2 := by
    rw [calculus_value_nat (by omega), Nat.cast_ofNat]
  have hsine : (call₁ .sine (.param "x") : Expr ℚ).value? (calculus.meaning parameters) =
      some sine :=
    value?_call₁_eq_some.mpr ⟨_, hx, atVariable_eq_some.mpr ⟨rfl, rfl⟩⟩
  have hcosine : (call₁ .cosine (.param "x") : Expr ℚ).value? (calculus.meaning parameters) =
      some cosine :=
    value?_call₁_eq_some.mpr ⟨_, hx, atVariable_eq_some.mpr ⟨rfl, rfl⟩⟩
  have hsquare : (power (.param "x") (nat 2) : Expr ℚ).value? (calculus.meaning parameters) =
      some (generator 0 ^ (2 : Int)) :=
    calculus_value_power.mpr ⟨_, 2, hx, by exact_mod_cast htwo, .inr (by decide), rfl⟩
  have hpower : (power (.param "x") (difference (nat 2) (nat 1)) : Expr ℚ).value?
      (calculus.meaning parameters) = some (generator 0 ^ (1 : Int)) :=
    calculus_value_power.mpr ⟨_, 1, hx,
      calculus_value_difference.mpr ⟨_, _, htwo, hone, by norm_num⟩, .inr (by decide), rfl⟩
  have hsquare' := calculus_value_product.mpr
    ⟨_, _, calculus_value_product.mpr ⟨_, _, htwo, hpower, rfl⟩, hone, rfl⟩
  have hsine' := calculus_value_product.mpr ⟨_, _, hcosine, hone, rfl⟩
  have hv := calculus_value_product.mpr ⟨_, _, hsquare, hsine, rfl⟩
  have hw := calculus_value_sum.mpr
    ⟨_, _, calculus_value_product.mpr ⟨_, _, hsquare', hsine, rfl⟩,
      calculus_value_product.mpr ⟨_, _, hsquare, hsine', rfl⟩, rfl⟩
  have hd : e.derivative "x" = .ok _ := rfl
  have he : e.dependsOn (Builtin.placeholder 1) = false := by decide
  exact ⟨_, _, _, he, hd, hv, hw, derivative_value calculus isVariable he hd hv hw⟩

end Expr

end SymbolicCalculus
