import SymbolicCalculus.Binary64.Basic
import SymbolicCalculus.Expr.Value

/-!
# Values after a substitution

Whether an expression has a value depends only on its parameters: it has one where every parameter
that it mentions has one, and the error names the leftmost parameter without a value
(`evaluate_eq_error_iff`). To put an expression in for a parameter and then evaluate is to evaluate
with the value of that expression for the parameter, whatever the operations and functions are
(`evaluate_substitute`).
-/

namespace SymbolicCalculus.Expr

variable {α : Type} {a b e x y : Expr α} {p q : String}

/-! ## Parameters without a value -/

/-- The names of the parameters from the left, each as often as the parameter is mentioned. -/
def parameterNames : Expr α → List String
  | param p => [p]
  | const _ | call₀ _ => []
  | binary _ a b => a.parameterNames ++ b.parameterNames
  | neg a => a.parameterNames
  | call₁ _ x => x.parameterNames
  | call₂ _ x y => x.parameterNames ++ y.parameterNames

theorem head?_parameterNames (e : Expr α) : e.parameterNames.head? = e.firstParameter? := by
  induction e with
  | binary op a b iha ihb | call₂ f a b iha ihb =>
    rw [parameterNames, List.head?_append, iha, ihb, firstParameter?]
    cases a.firstParameter? <;> rfl
  | neg a ih | call₁ f a ih => exact ih
  | param p | const k | call₀ f => rfl

/-- The leftmost parameter other than `p`. -/
def unbound? (p : String) (e : Expr α) : Option String :=
  e.parameterNames.find? (· != p)

theorem unbound?_param : (param q : Expr α).unbound? p = if q = p then none else some q := by
  by_cases h : q = p <;> simp [unbound?, parameterNames, h]

theorem unbound?_binary (op : Operator) :
    (binary op a b).unbound? p = (a.unbound? p).or (b.unbound? p) :=
  List.find?_append

theorem unbound?_call₂ (f : Builtin) :
    (call₂ f x y).unbound? p = (x.unbound? p).or (y.unbound? p) :=
  List.find?_append

section values

variable [Arithmetic α] [Elementary α] {v : α}

theorem evaluate_of_unbound?_eq_none (h : e.unbound? p = none) : ∃ k, e.evaluate p v = .ok k := by
  induction e with
  | param q =>
    rw [unbound?_param] at h
    split at h
    · next heq => exact ⟨v, if_pos heq⟩
    · contradiction
  | const k => exact ⟨k, rfl⟩
  | binary op a b iha ihb =>
    rw [unbound?_binary, Option.or_eq_none_iff] at h
    obtain ⟨k, hk⟩ := iha h.1
    obtain ⟨l, hl⟩ := ihb h.2
    exact ⟨op.apply k l, by rw [evaluate, hk, hl]; rfl⟩
  | neg a ih =>
    obtain ⟨k, hk⟩ := ih h
    exact ⟨-k, by rw [evaluate, hk]; rfl⟩
  | call₀ f => exact ⟨f.evaluate [], rfl⟩
  | call₁ f x ih =>
    obtain ⟨k, hk⟩ := ih h
    exact ⟨f.evaluate [k], by rw [evaluate, hk]; rfl⟩
  | call₂ f x y ihx ihy =>
    rw [unbound?_call₂, Option.or_eq_none_iff] at h
    obtain ⟨k, hk⟩ := ihx h.1
    obtain ⟨l, hl⟩ := ihy h.2
    exact ⟨f.evaluate [k, l], by rw [evaluate, hk, hl]; rfl⟩

/-- The first operand with an unbound parameter ends the evaluation; those before it have values. -/
theorem evaluate_of_unbound?_eq_some (h : e.unbound? p = some q) :
    e.evaluate p v = .error (.unboundParameter q) := by
  induction e with
  | param r =>
    rw [unbound?_param] at h
    split at h
    · contradiction
    · next hne =>
      obtain rfl : r = q := Option.some.inj h
      exact if_neg hne
  | const k => contradiction
  | binary op a b iha ihb =>
    rw [unbound?_binary, Option.or_eq_some_iff] at h
    rcases h with ha | ⟨ha, hb⟩
    · rw [evaluate, iha ha]
      rfl
    · obtain ⟨k, hk⟩ := evaluate_of_unbound?_eq_none (v := v) ha
      rw [evaluate, hk, ihb hb]
      rfl
  | neg a ih =>
    rw [evaluate, ih h]
    rfl
  | call₀ f => contradiction
  | call₁ f x ih =>
    rw [evaluate, ih h]
    rfl
  | call₂ f x y ihx ihy =>
    rw [unbound?_call₂, Option.or_eq_some_iff] at h
    rcases h with hx | ⟨hx, hy⟩
    · rw [evaluate, ihx hx]
      rfl
    · obtain ⟨k, hk⟩ := evaluate_of_unbound?_eq_none (v := v) hx
      rw [evaluate, hk, ihy hy]
      rfl

/-- The error names the leftmost parameter without a value. -/
theorem evaluate_eq_error_iff :
    e.evaluate p v = .error (.unboundParameter q) ↔ e.unbound? p = some q := by
  constructor
  · intro h
    cases hunbound : e.unbound? p with
    | none =>
      obtain ⟨k, hk⟩ := evaluate_of_unbound?_eq_none (v := v) hunbound
      rw [hk] at h
      contradiction
    | some r =>
      rw [evaluate_of_unbound?_eq_some hunbound] at h
      obtain rfl : r = q := EvaluationError.unboundParameter.inj (Except.error.inj h)
      rfl
  · exact evaluate_of_unbound?_eq_some

/-! ## Substitution -/

/-- What is put in for the parameter may mention it again, and is not searched. -/
theorem evaluate_of_substitute {w : Expr α} {c : α} (hw : w.evaluate p v = .ok c) (e : Expr α) :
    (e.substitute p w).evaluate p v = e.evaluate p c := by
  induction e with
  | param q =>
    by_cases h : q = p
    · rw [substitute, if_pos h, evaluate, if_pos h, hw]
    · rw [substitute, if_neg h, evaluate, if_neg h, evaluate, if_neg h]
  | const k => rfl
  | binary op a b iha ihb => rw [substitute, evaluate, evaluate, iha, ihb]
  | neg a ih => rw [substitute, evaluate, evaluate, ih]
  | call₀ f => rfl
  | call₁ f x ih => rw [substitute, evaluate, evaluate, ih]
  | call₂ f x y ihx ihy => rw [substitute, evaluate, evaluate, ihx, ihy]

/-- **Substitution composes with evaluation.** If an expression that is put in for a parameter has a
value, then evaluating after that is evaluating with this value for the parameter. Either both have
the same value, or both fail, and then because of the leftmost parameter that is another one. -/
theorem evaluate_substitute {w : Expr α} {c : α} (hw : w.evaluate p v = .ok c) (e : Expr α) :
    (e.substitute p w).evaluate p v = e.evaluate p c ∧
      ∀ q, e.evaluate p c = .error (.unboundParameter q) ↔
        e.parameterNames.find? (· != p) = some q :=
  ⟨evaluate_of_substitute hw e, fun _ => evaluate_eq_error_iff⟩

end values

/-- With `x + 1` for `x`, the logarithm of `x*x` to the base `y*z` needs a value for `y`. -/
theorem evaluate_substitute_of_logarithm :
    let w : Expr Binary64 := .sum (.param "x") (nat 1)
    let e : Expr Binary64 := .call₂ .log (.product (.param "x") (.param "x"))
      (.product (.param "y") (.param "z"))
    w.evaluate "x" (Nat.cast 2) = .ok (Nat.cast 3) ∧
      (e.substitute "x" w).evaluate "x" (Nat.cast 2) = .error (.unboundParameter "y") ∧
        e.evaluate "x" (Nat.cast 3) = .error (.unboundParameter "y") := by
  intro w e
  have hsum : (Nat.cast 2 + Nat.cast 1 : Binary64) = Nat.cast 3 := by decide
  have hw : w.evaluate "x" (Nat.cast 2) = .ok (Nat.cast 3) := congrArg Except.ok hsum
  obtain ⟨heq, herror⟩ := evaluate_substitute hw e
  have he : e.evaluate "x" (Nat.cast 3) = .error (.unboundParameter "y") :=
    (herror "y").mpr (by decide)
  exact ⟨hw, heq.trans he, he⟩

end SymbolicCalculus.Expr
