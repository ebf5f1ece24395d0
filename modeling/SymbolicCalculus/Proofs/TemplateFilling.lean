import SymbolicCalculus.Derivative
import SymbolicCalculus.Binary64.Basic

/-!
# Filling a template

The outer derivative of a call is a template with the arguments put in for its placeholders, one
placeholder after the other, so what is put in first is searched again for the placeholders that are
left. `Builtin.fill_eq_replaceAll` says what comes of that in one step: each placeholder is replaced
by its argument in which the later placeholders are filled already.
`Builtin.outerDerivative_eq_replaceAll_iff` draws the line: the arguments are put in verbatim unless
the first of two mentions the placeholder of the second.
-/

namespace SymbolicCalculus

variable {α : Type}

namespace Expr

/-! ## Many parameters at once -/

/-- The expression with every parameter that has a replacement exchanged for it, all at once. -/
def replaceAll (replacement? : String → Option (Expr α)) : Expr α → Expr α
  | param q => (replacement? q).getD (param q)
  | const a => const a
  | binary op a b => binary op (a.replaceAll replacement?) (b.replaceAll replacement?)
  | neg a => neg (a.replaceAll replacement?)
  | call₀ f => call₀ f
  | call₁ f x => call₁ f (x.replaceAll replacement?)
  | call₂ f x y => call₂ f (x.replaceAll replacement?) (y.replaceAll replacement?)

@[simp] theorem replaceAll_none (e : Expr α) : e.replaceAll (fun _ => none) = e := by
  induction e <;> simp_all [replaceAll]

theorem substitute_eq_replaceAll (e : Expr α) (p : String) (w : Expr α) :
    e.substitute p w = e.replaceAll fun q => if q = p then some w else none := by
  induction e with
  | param q => by_cases h : q = p <;> simp [substitute, replaceAll, h]
  | _ => simp_all [substitute, replaceAll]

/-- What is put in first takes part in the replacement that follows. -/
theorem replaceAll_substitute (e : Expr α) (p : String) (w : Expr α)
    (replacement? : String → Option (Expr α)) :
    (e.substitute p w).replaceAll replacement? =
      e.replaceAll fun q => if q = p then some (w.replaceAll replacement?) else replacement? q := by
  induction e with
  | param q => by_cases h : q = p <;> simp [substitute, replaceAll, h]
  | _ => simp_all [substitute, replaceAll]

/-- Two replacements give the same if they agree on the parameters that are mentioned, and only
then. -/
theorem replaceAll_eq_iff (e : Expr α) (σ τ : String → Option (Expr α)) :
    e.replaceAll σ = e.replaceAll τ ↔
      ∀ q, e.dependsOn q = true → (σ q).getD (param q) = (τ q).getD (param q) := by
  induction e with
  | param q => simp [replaceAll, dependsOn]
  | const | call₀ => simp [replaceAll, dependsOn]
  | neg a ih => simpa [replaceAll, dependsOn] using ih
  | call₁ f x ih => simpa [replaceAll, dependsOn] using ih
  | binary op a b iha ihb =>
    simp only [replaceAll, dependsOn, Bool.or_eq_true, or_imp, forall_and, ← iha, ← ihb]
    simp
  | call₂ f x y ihx ihy =>
    simp only [replaceAll, dependsOn, Bool.or_eq_true, or_imp, forall_and, ← ihx, ← ihy]
    simp

/-- A substitution changes an expression if the parameter is mentioned and is not put back. -/
theorem substitute_eq_self_iff (e : Expr α) (p : String) (w : Expr α) :
    e.substitute p w = e ↔ e.dependsOn p = false ∨ w = param p := by
  have h := replaceAll_eq_iff e (fun q => if q = p then some w else none) fun _ => none
  rw [← substitute_eq_replaceAll, replaceAll_none] at h
  rw [h]
  constructor
  · intro hall
    by_cases hp : e.dependsOn p = true
    · right
      simpa using hall p hp
    · left
      simpa using hp
  · intro hor q hq
    by_cases hqp : q = p
    · subst hqp
      simpa [hq] using hor
    · simp [hqp]

theorem substitute_eq_self {e w : Expr α} {p : String} (h : e.dependsOn p = false) :
    e.substitute p w = e :=
  (substitute_eq_self_iff e p w).mpr (.inl h)

end Expr

open SymbolicCalculus.Expr

namespace Builtin

/-! ## One placeholder after the other -/

/-- The argument that a parameter is the placeholder of, where the placeholders count from
`index`. -/
def argument? (index : Nat) : List (Expr α) → String → Option (Expr α)
  | [], _ => none
  | x :: rest, q => if q = placeholder index then some x else argument? (index + 1) rest q

/-- The same argument with the placeholders of the later arguments filled in it. -/
def filledArgument? (index : Nat) : List (Expr α) → String → Option (Expr α)
  | [], _ => none
  | x :: rest, q =>
    if q = placeholder index then some (fill x (index + 1) rest)
    else filledArgument? (index + 1) rest q

/-- By induction over the arguments, for any template, since an argument that was put in is the
template of the arguments that follow. -/
theorem fill_eq_replaceAll (template : Expr α) (index : Nat) (arguments : List (Expr α)) :
    fill template index arguments = template.replaceAll (filledArgument? index arguments) := by
  induction arguments generalizing template index with
  | nil => simp [fill, filledArgument?]
  | cons x rest ih =>
    rw [fill, ih, replaceAll_substitute, ← ih]
    rfl

/-! ## The outer derivative -/

variable [NatCast α]

theorem placeholder_zero_ne_one : placeholder 0 ≠ placeholder 1 := by decide

theorem outerDerivative_log_base_eq (x base : Expr α) :
    log.outerDerivative [x, base] =
      quotient (nat 1) (product (x.substitute (placeholder 1) base) (call₁ log base)) := by
  simp [outerDerivative, fill, derivativeTemplate, substitute, placeholder_zero_ne_one.symm]

/-- The template of the logarithm to a base, with both arguments put in at once. -/
theorem replaceAll_derivativeTemplate_log (x base : Expr α) :
    (log.derivativeTemplate 2).replaceAll (argument? 0 [x, base]) =
      quotient (nat 1) (product x (call₁ log base)) := by
  simp [derivativeTemplate, replaceAll, argument?, placeholder_zero_ne_one.symm]

/-- **When the arguments are put in verbatim.** What a call's outer derivative is, for any
arguments: the template with each placeholder replaced by its argument in which the later
placeholders are filled. That is the template with all placeholders replaced by the arguments at
once unless there are two arguments, the first mentions the placeholder of the second, and the
second is not that placeholder itself; for the logarithm to a base, this is what keeps the
derivative from being `1 / (x * log base)`. -/
theorem outerDerivative_eq_replaceAll_iff (f : Builtin) (arguments : List (Expr α))
    (haccepts : f.accepts arguments.length = true) :
    f.outerDerivative arguments =
        (f.derivativeTemplate arguments.length).replaceAll (filledArgument? 0 arguments) ∧
    (f.outerDerivative arguments =
        (f.derivativeTemplate arguments.length).replaceAll (argument? 0 arguments) ↔
      ∀ x base, arguments = [x, base] →
        x.dependsOn (placeholder 1) = false ∨ base = param (placeholder 1)) := by
  refine ⟨fill_eq_replaceAll _ _ _, ?_⟩
  match arguments with
  | [] => simp [accepts] at haccepts
  | [x] =>
    have heq : f.outerDerivative [x] = (f.derivativeTemplate 1).replaceAll (argument? 0 [x]) :=
      fill_eq_replaceAll _ _ _
    simp [heq]
  | [x, base] =>
    obtain rfl : f = log := by cases f <;> simp_all [accepts, maxArity]
    have heq : log.outerDerivative [x, base] = (log.derivativeTemplate 2).replaceAll
        (argument? 0 [x, base]) ↔ x.substitute (placeholder 1) base = x := by
      rw [outerDerivative_log_base_eq, replaceAll_derivativeTemplate_log]
      simp
    simpa [substitute_eq_self_iff] using heq
  | x :: y :: z :: rest =>
    have := le_two_of_accepts haccepts
    simp at this

theorem outerDerivative_eq_replaceAll_of_log :
    log.accepts 2 = true ∧
    log.outerDerivative [param (placeholder 0), (nat 2 : Expr Binary64)] =
      (log.derivativeTemplate 2).replaceAll (argument? 0 [param (placeholder 0), nat 2]) := by
  have haccepts : log.accepts 2 = true := by decide
  have hiff := (outerDerivative_eq_replaceAll_iff log
    [param (placeholder 0), (nat 2 : Expr Binary64)] haccepts).2
  refine ⟨haccepts, hiff.mpr ?_⟩
  rintro x base h
  obtain ⟨rfl, rfl⟩ : param (placeholder 0) = x ∧ nat 2 = base := by simpa using h
  left
  simp [dependsOn, placeholder_zero_ne_one]

/-- The base 2 is put in for a parameter of that name, which then no longer is in the derivative. -/
theorem outerDerivative_captures :
    log.outerDerivative [param "__arg1__", (nat 2 : Expr Binary64)] ≠
      (log.derivativeTemplate 2).replaceAll (argument? 0 [param "__arg1__", nat 2]) ∧
    (call₂ log (param "__arg1__") (nat 2 : Expr Binary64)).derivative "__arg1__" =
      .ok (product (quotient (nat 1) (product (nat 2) (call₁ log (nat 2)))) (nat 1)) := by
  have hname : placeholder 1 = "__arg1__" := by decide
  have hcapture : (param "__arg1__").substitute (placeholder 1) (nat 2 : Expr Binary64) =
      nat 2 := by
    simp [substitute, hname]
  constructor
  · rw [outerDerivative_log_base_eq, replaceAll_derivativeTemplate_log, hcapture]
    simp
  · simp only [derivative, dependsOn, outerDerivative_log_base_eq, hcapture]
    rfl

end Builtin

end SymbolicCalculus
