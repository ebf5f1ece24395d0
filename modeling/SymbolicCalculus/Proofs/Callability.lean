import SymbolicCalculus.Proofs.HigherDerivatives
import SymbolicCalculus.Proofs.WellFormedness

/-!
# Functions that can be called

A function whose body is well-formed over its parameter has a value at every number. A formula with
at most one letter is read as such a function, and the derivations after it keep to that, each step
by `Derivation.isWellFormed_of_result` and all of them by `Derivation.isWellFormed_of_follow`.
-/

namespace SymbolicCalculus

/-! ## The parameter of a body -/

namespace Expr

variable {α : Type} {a b e : Expr α} {p : String}

theorem firstParameter?_binary (op : Operator) :
    (binary op a b).firstParameter? = a.firstParameter?.or b.firstParameter? :=
  Option.orElse_eq_or

theorem firstParameter?_call₂ (f : Builtin) :
    (call₂ f a b).firstParameter? = a.firstParameter?.or b.firstParameter? :=
  Option.orElse_eq_or

/-- The leftmost parameter is mentioned. -/
theorem dependsOn_of_firstParameter? (h : e.firstParameter? = some p) : e.dependsOn p = true := by
  induction e with
  | param q =>
    obtain rfl := Option.some.inj h
    exact beq_self_eq_true q
  | const k => contradiction
  | binary op a b iha ihb =>
    rw [firstParameter?_binary, Option.or_eq_some_iff] at h
    rw [dependsOn, Bool.or_eq_true]
    exact h.imp iha fun h => ihb h.2
  | neg a ih => exact ih h
  | call₀ f => contradiction
  | call₁ f x ih => exact ih h
  | call₂ f x y ihx ihy =>
    rw [firstParameter?_call₂, Option.or_eq_some_iff] at h
    rw [dependsOn, Bool.or_eq_true]
    exact h.imp ihx fun h => ihy h.2

/-- There is a leftmost parameter where one is mentioned. -/
theorem isSome_firstParameter? (h : e.dependsOn p = true) : e.firstParameter?.isSome = true := by
  induction e with
  | param q => rfl
  | const k => contradiction
  | binary op a b iha ihb =>
    rw [dependsOn, Bool.or_eq_true] at h
    rw [firstParameter?_binary, Option.isSome_or, Bool.or_eq_true]
    exact h.imp iha ihb
  | neg a ih => exact ih h
  | call₀ f => contradiction
  | call₁ f x ih => exact ih h
  | call₂ f x y ihx ihy =>
    rw [dependsOn, Bool.or_eq_true] at h
    rw [firstParameter?_call₂, Option.isSome_or, Bool.or_eq_true]
    exact h.imp ihx ihy

end Expr

namespace Lambda

variable {α : Type} {f : Lambda α}

/-- The body is well-formed over the parameter. -/
def IsWellFormed (f : Lambda α) : Prop :=
  f.body.IsWellFormed {f.parameter}

/-- The calls in the body have as many arguments as the functions take, and the function has a value
at every number, whatever a call without a meaning evaluates to. -/
def IsCallable [Arithmetic α] [E : Elementary α] (f : Lambda α) : Prop :=
  f.body.CallsAccepted ∧ ∀ v, ∃ w, ∀ u, @call α _ (E.withUndefined u) f v = .ok w

theorem IsWellFormed.isCallable [Arithmetic α] [Elementary α] (h : f.IsWellFormed) :
    f.IsCallable :=
  ⟨h.1, fun v => Expr.IsWellFormed.evaluate h v⟩

/-- The function that a body with at most one parameter stands for. -/
theorem isWellFormed_ofBody {body : Expr α} (hcalls : body.CallsAccepted)
    (hone : ∀ p q, body.dependsOn p = true → body.dependsOn q = true → p = q) :
    (ofBody body).IsWellFormed := by
  unfold ofBody
  split
  · next hx => exact ⟨hcalls, fun p hp => hone p "x" hp hx⟩
  · refine ⟨hcalls, fun p hp => ?_⟩
    obtain ⟨q, hq⟩ := Option.isSome_iff_exists.mp (Expr.isSome_firstParameter? hp)
    rw [hq]
    exact hone p q hp (Expr.dependsOn_of_firstParameter? hq)

end Lambda

namespace Derivation

variable {α : Type} [Scalar α] {limits : Limits} {f : Lambda α} {d d' : Derivation α}

/-- A function and its derivative, both well-formed over their parameters. -/
def IsWellFormed (d : Derivation α) : Prop :=
  d.function.IsWellFormed ∧ d.derivative.IsWellFormed

theorem isWellFormed_of_result (hf : f.IsWellFormed) (h : (of limits f).result = .ok d) :
    d.IsWellFormed := by
  obtain ⟨body, hbody, rfl⟩ := result_of_eq_ok.mp h
  have hlocal := Expr.isLocal_isWellFormed (α := α) {f.parameter}
  exact ⟨hf, hlocal.of_reduce hlocal limits (Expr.IsWellFormed.derivative hf hbody)⟩

/-- What comes after a derivation of well-formed functions. -/
theorem isWellFormed_of_follow (hd : d.IsWellFormed) {limitsOfEach : List Limits}
    (h : (d.follow limitsOfEach).result = .ok d') : d'.IsWellFormed := by
  induction limitsOfEach generalizing d with
  | nil =>
    obtain rfl : d = d' := Except.ok.inj h
    exact hd
  | cons limits rest ih =>
    obtain ⟨d₁, hd₁, hrest⟩ := Traced.result_bind_eq_ok.mp h
    exact ih (isWellFormed_of_result hd.2 hd₁) hrest

end Derivation

/-- A formula with at most one letter is read as a well-formed function. -/
theorem Formula.isWellFormed_readFunction {α : Type} [Scalar α] [Numeral α] {limits : Limits}
    {text : String} {body : Expr α} (hbody : parse limits.maxDepth (normalize text) = .ok body)
    (hone : ∀ p q, body.dependsOn p = true → body.dependsOn q = true → p = q) :
    ((Lambda.ofBody body).withBody (body.reduce limits).expr).IsWellFormed := by
  have hcalls : body.CallsAccepted := isClosed_callsAccepted.of_parse hbody
  have hlambda := Lambda.isWellFormed_ofBody hcalls hone
  rw [Lambda.IsWellFormed, Lambda.ofBody_body] at hlambda
  have hlocal := Expr.isLocal_isWellFormed (α := α) {(Lambda.ofBody body).parameter}
  exact hlocal.of_reduce hlocal limits hlambda

/-- **Well-formedness is kept throughout.** Whatever is made of an expression by reducing it,
factoring it, expanding it, differentiating it, dividing it or taking its common factor with another
one is well-formed over the same parameters. The function that a formula with at most one letter is
read as, and every function and every derivative in the derivations after it, can be called. -/
theorem isWellFormed_throughout {α : Type} [Scalar α] [Numeral α] [Elementary α] :
    (∀ (S : Set String) (limits : Limits) (e : Expr α), e.IsWellFormed S →
      (e.reduceOnce limits).expr.IsWellFormed S ∧ (e.reduce limits).expr.IsWellFormed S ∧
      e.factored.expr.IsWellFormed S ∧
      e.expandOnce.expr.IsWellFormed S ∧ (e.expand limits).expr.IsWellFormed S ∧
      (∀ p d, e.derivative p = .ok d → d.IsWellFormed S) ∧
      (∀ b g, b.IsWellFormed S → Expr.commonFactor? e b = some g → g.IsWellFormed S) ∧
      ∀ g r, Expr.divideOut? e g = some r → r.IsWellFormed S) ∧
    ∀ (limits : Limits) (text : String) (body : Expr α),
      Formula.parse limits.maxDepth (Formula.normalize text) = .ok body →
      (∀ p q, body.dependsOn p = true → body.dependsOn q = true → p = q) →
      (∃ f : Lambda α, (Formula.readFunction limits text).result = .ok f ∧ f.IsCallable) ∧
      ∀ d : Derivation α, (Derivation.ofFormula limits text).result = .ok d →
        ∀ limitsOfEach d', (d.follow limitsOfEach).result = .ok d' →
          d'.function.IsCallable ∧ d'.derivative.IsCallable := by
  constructor
  · intro S limits e he
    have hlocal := Expr.isLocal_isWellFormed (α := α) S
    exact ⟨hlocal.of_refine hlocal _ he, hlocal.of_reduce hlocal limits he,
      hlocal.of_factored hlocal he, hlocal.of_expandOnce hlocal he,
      hlocal.of_expand hlocal limits he, fun p d hd => he.derivative hd,
      fun b g hb hg => hlocal.of_commonFactor? hlocal he hb hg,
      fun g r hr => hlocal.of_divideOut? hlocal he hr⟩
  · intro limits text body hbody hone
    have hf := Formula.isWellFormed_readFunction hbody hone
    have hread := Formula.result_readFunction_eq_ok.mpr ⟨body, hbody, rfl⟩
    refine ⟨⟨_, hread, hf.isCallable⟩, fun d hd limitsOfEach d' hd' => ?_⟩
    obtain ⟨f', hf', hof⟩ := Traced.result_bind_eq_ok.mp hd
    obtain rfl := Except.ok.inj (hread.symm.trans hf')
    have hall := Derivation.isWellFormed_of_follow (Derivation.isWellFormed_of_result hf hof) hd'
    exact ⟨hall.1.isCallable, hall.2.isCallable⟩

/-- The sine of `x` doubled, as an expression and as a formula. -/
theorem isWellFormed_throughout_of_sine :
    let e : Expr Binary64 :=
      .product (.const (Numeral.ofDecimal 2 0)) (.call₁ .sine (.param "x"))
    let body : Expr Binary64 := .sum (.const (Numeral.ofDecimal 0 0)) e
    e.IsWellFormed {"x"} ∧ (e.reduce {}).expr.IsWellFormed {"x"} ∧
      Formula.parse 512 (Formula.normalize "2sin(x)") = .ok body ∧
      (∀ p q, body.dependsOn p = true → body.dependsOn q = true → p = q) ∧
      (∃ f : Lambda Binary64, (Formula.readFunction {} "2sin(x)").result = .ok f ∧
        f.IsCallable) ∧
      ∃ d : Derivation Binary64, (Derivation.ofFormula {} "2sin(x)").result = .ok d ∧
        ∀ limitsOfEach d', (d.follow limitsOfEach).result = .ok d' →
          d'.function.IsCallable ∧ d'.derivative.IsCallable := by
  intro e body
  have he : e.IsWellFormed {"x"} := by
    refine ⟨⟨trivial, rfl, trivial⟩, fun p hp => ?_⟩
    simp only [e, Expr.dependsOn, Bool.false_or, beq_iff_eq] at hp
    exact hp.symm
  have hone (p q : String) (hp : body.dependsOn p = true) (hq : body.dependsOn q = true) :
      p = q := by
    simp only [body, e, Expr.dependsOn, Bool.false_or, beq_iff_eq] at hp hq
    exact hp.symm.trans hq
  have htokens : Formula.tokens "2sin(x)".toList = [.number ['2'], .operator .times,
      .function .sine, .openParen, .letter 'x', .closeParen] := by
    rw [Formula.tokens_eq]
    decide
  have hreads : Formula.Reads .sum (Formula.tokens "2sin(x)".toList) e := by
    rw [htokens]
    have hcall : Formula.Reads .primary
        (.function .sine :: .openParen :: [.letter 'x'] ++ [.closeParen])
        (.call₁ .sine (.param "x") : Expr Binary64) :=
      .call₁ rfl (Formula.Reads.letter.sum_of_primary)
    exact .binary (.number rfl) .times hcall
  have hparse : Formula.parse ({} : Limits).maxDepth (Formula.normalize "2sin(x)") = .ok body :=
    hreads.parse_normalize (by decide)
  have hdifferentiable : (Lambda.ofBody body).IsDifferentiable := ⟨trivial, trivial, rfl, trivial⟩
  obtain ⟨d, hd⟩ := Derivation.exists_ofFormula hparse hdifferentiable
  obtain ⟨hexpr, hformula⟩ := isWellFormed_throughout (α := Binary64)
  obtain ⟨hread, hfollow⟩ := hformula {} "2sin(x)" body hparse hone
  exact ⟨he, (hexpr {"x"} {} e he).2.1, hparse, hone, hread, d, hd, hfollow d hd⟩

end SymbolicCalculus
