import Mathlib.Algebra.CharP.Algebra
import Mathlib.Algebra.MvPolynomial.Derivation
import Mathlib.RingTheory.Etale.Kaehler
import Mathlib.RingTheory.Localization.FractionRing
import SymbolicCalculus.Proofs.DifferentialCalculus

/-!
# A field of elementary functions

A field in which expressions with logarithms, sines and cosines of the variable have values. It is
generated by the variable, its logarithm, and the tangent of half the variable, of which the sine
and the cosine are rational functions. The derivation is extended from polynomials to their
fractions along the Kähler differentials.
-/

namespace SymbolicCalculus

open MvPolynomial

/-- Rational functions in the variable, its logarithm and the tangent of its half. -/
def ElementaryField : Type := FractionRing (MvPolynomial (Fin 3) ℤ)

namespace ElementaryField

noncomputable instance : Field ElementaryField :=
  inferInstanceAs (Field (FractionRing (MvPolynomial (Fin 3) ℤ)))

instance : CharZero ElementaryField :=
  inferInstanceAs (CharZero (FractionRing (MvPolynomial (Fin 3) ℤ)))

noncomputable instance : Algebra (MvPolynomial (Fin 3) ℤ) ElementaryField :=
  inferInstanceAs (Algebra _ (FractionRing (MvPolynomial (Fin 3) ℤ)))

instance : IsFractionRing (MvPolynomial (Fin 3) ℤ) ElementaryField :=
  inferInstanceAs (IsFractionRing _ (FractionRing (MvPolynomial (Fin 3) ℤ)))

/-- A generator of the field. -/
noncomputable def generator (i : Fin 3) : ElementaryField :=
  algebraMap (MvPolynomial (Fin 3) ℤ) ElementaryField (X i)

/-- The derivative of each generator. -/
noncomputable def generatorDerivative : Fin 3 → ElementaryField :=
  ![1, 1 / generator 0, (1 + generator 2 ^ 2) / 2]

instance : Algebra.FormallyEtale (MvPolynomial (Fin 3) ℤ) ElementaryField :=
  .of_isLocalization (nonZeroDivisors _)

/-- The derivation with these values at the generators. -/
noncomputable def derivation : Derivation ℤ ElementaryField ElementaryField :=
  (IsBaseChange.lift
    (KaehlerDifferential.isBaseChange_of_formallyEtale ℤ (MvPolynomial (Fin 3) ℤ)
      ElementaryField)
    (mkDerivation ℤ generatorDerivative).liftKaehlerDifferential).compDer
      (KaehlerDifferential.D ℤ ElementaryField)

/-! ## Derivatives -/

theorem deriv_generator (i : Fin 3) : derivation (generator i) = generatorDerivative i := by
  unfold generator derivation
  rw [Derivation.coe_comp, LinearMap.comp_apply, LinearMap.coe_restrictScalars,
    Derivation.coeFn_coe, ← KaehlerDifferential.map_D ℤ ℤ, IsBaseChange.lift_eq,
    Derivation.liftKaehlerDifferential_comp_D, mkDerivation_X]

theorem one_add_generator_sq_ne_zero : 1 + generator 2 ^ 2 ≠ 0 := by
  unfold generator
  rw [← map_pow, ← map_one (algebraMap (MvPolynomial (Fin 3) ℤ) ElementaryField), ← map_add, Ne,
    FaithfulSMul.algebraMap_eq_zero_iff]
  intro h
  simpa using congrArg (eval 0) h

theorem deriv_rat (q : ℚ) : derivation (q : ElementaryField) = 0 := by
  rw [Rat.cast_def, derivation.leibniz_div, Derivation.map_intCast, Derivation.map_natCast,
    smul_zero, smul_zero, sub_zero, smul_zero]

/-- The sine of the variable, by the tangent of its half. -/
noncomputable def sine : ElementaryField := 2 * generator 2 / (1 + generator 2 ^ 2)

/-- The cosine of the variable, by the tangent of its half. -/
noncomputable def cosine : ElementaryField := (1 - generator 2 ^ 2) / (1 + generator 2 ^ 2)

theorem deriv_variable : derivation (generator 0) = 1 := deriv_generator 0

theorem deriv_logarithm : derivation (generator 1) = 1 / generator 0 := deriv_generator 1

theorem deriv_halfTangent_sq :
    derivation (generator 2 ^ 2) = generator 2 * (1 + generator 2 ^ 2) := by
  have h : derivation (generator 2) = (1 + generator 2 ^ 2) / 2 := deriv_generator 2
  rw [Derivation.leibniz_pow, h, smul_eq_mul, nsmul_eq_mul]
  ring

theorem deriv_sine : derivation sine = cosine := by
  have h : derivation (generator 2) = (1 + generator 2 ^ 2) / 2 := deriv_generator 2
  have hne := one_add_generator_sq_ne_zero
  have htwo : derivation (2 * generator 2) = 1 + generator 2 ^ 2 := by
    rw [two_mul, map_add, h, add_halves]
  rw [sine, cosine, derivation.leibniz_div, map_add,
    Derivation.map_one_eq_zero, deriv_halfTangent_sq, htwo, smul_eq_mul, smul_eq_mul, smul_eq_mul]
  field_simp
  ring

theorem deriv_cosine : derivation cosine = -sine := by
  have hne := one_add_generator_sq_ne_zero
  rw [sine, cosine, derivation.leibniz_div, map_add, map_sub,
    Derivation.map_one_eq_zero, deriv_halfTangent_sq, smul_eq_mul, smul_eq_mul, smul_eq_mul]
  field_simp
  ring

theorem sine_sq_add_cosine_sq : sine ^ 2 + cosine ^ 2 = 1 := by
  have hne := one_add_generator_sq_ne_zero
  rw [sine, cosine]
  field_simp
  ring

/-! ## Elementary functions -/

open Classical in
/-- A function that is defined at the variable only. -/
noncomputable def atVariable (value u : ElementaryField) : Option ElementaryField :=
  if u = generator 0 then some value else none

theorem atVariable_eq_some {value u v : ElementaryField} :
    atVariable value u = some v ↔ u = generator 0 ∧ value = v := by
  unfold atVariable
  split <;> simp_all

/-- Rational constants, and the elementary functions at the variable. -/
noncomputable def calculus : Calculus ℚ ElementaryField where
  deriv := derivation
  const := Rat.cast
  ln := atVariable (generator 1)
  sine := atVariable sine
  cosine := atVariable cosine
  const_natCast n _ := Rat.cast_natCast n
  deriv_const := deriv_rat
  deriv_ln h := by
    obtain ⟨rfl, rfl⟩ := atVariable_eq_some.mp h
    rw [deriv_logarithm, deriv_variable]
  deriv_sine h := by
    obtain ⟨rfl, rfl⟩ := atVariable_eq_some.mp h
    exact ⟨cosine, atVariable_eq_some.mpr ⟨rfl, rfl⟩, by rw [deriv_sine, deriv_variable, mul_one]⟩
  deriv_cosine h := by
    obtain ⟨rfl, rfl⟩ := atVariable_eq_some.mp h
    exact ⟨sine, atVariable_eq_some.mpr ⟨rfl, rfl⟩, by rw [deriv_cosine, deriv_variable, mul_one]⟩
  sine_sq_add_cosine_sq hs hc := by
    obtain ⟨rfl, rfl⟩ := atVariable_eq_some.mp hs
    obtain ⟨-, rfl⟩ := atVariable_eq_some.mp hc
    exact sine_sq_add_cosine_sq

/-- The parameter x is the variable, and the others have no value. -/
noncomputable def parameters (q : String) : Option ElementaryField :=
  if q = "x" then some (generator 0) else none

theorem isVariable : calculus.IsVariable parameters "x" := by
  intro q v hv
  unfold parameters at hv
  split at hv
  · obtain rfl := Option.some.inj hv
    have hderiv : calculus.deriv (generator 0) = 1 := deriv_variable
    rw [hderiv]
    simp_all
  · contradiction

end ElementaryField

end SymbolicCalculus
