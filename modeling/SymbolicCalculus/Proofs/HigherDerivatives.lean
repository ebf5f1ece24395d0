import SymbolicCalculus.Proofs.Differentiability
import SymbolicCalculus.Proofs.FormulaReading
import SymbolicCalculus.Proofs.ParsedTree

/-!
# Once differentiable, always differentiable

A function that has a derivation has a derivative whose exponents and bases of logarithms do not
mention the parameter, and so it has a next derivation, and another one after that
(`Derivation.follow_succeeds`). The calls of a function that was read from a formula have as many
arguments as the functions take, and so this is true of every formula that can be differentiated.
-/

namespace SymbolicCalculus

/-! ## Derivatives one after the other -/

namespace Traced

variable {α β γ : Type}

theorem result_bind_eq_ok {x : Traced α β} {f : β → Traced α γ} {c : γ} :
    (x >>= f).result = .ok c ↔ ∃ b, x.result = .ok b ∧ (f b).result = .ok c := by
  obtain ⟨events, result⟩ := x
  cases result with
  | error e =>
    show Except.error e = Except.ok c ↔ _
    simp
  | ok b =>
    show (f b).result = .ok c ↔ _
    simp

end Traced

/-- Nothing in the body stands in the way of differentiating the function. -/
def Lambda.IsDifferentiable {α : Type} (f : Lambda α) : Prop :=
  f.body.IsDifferentiable f.parameter

namespace Derivation

variable {α : Type} [Scalar α] {limits : Limits} {f : Lambda α} {d : Derivation α}

/-- The derivation after the next ones, where each has limits of its own. -/
def follow (d : Derivation α) : List Limits → Traced α (Derivation α)
  | [] => pure d
  | limits :: rest => do
    let d' ← d.next limits
    d'.follow rest

theorem result_of_eq_ok :
    (of limits f).result = .ok d ↔ ∃ body, f.body.derivative f.parameter = .ok body ∧
      (⟨f, f.withBody (body.reduce limits).expr⟩ : Derivation α) = d := by
  have hderivative : (Traced.ofSupported f.derivative : Traced α (Lambda α)).result =
      ((f.body.derivative f.parameter).map f.withBody).mapError .unsupported := rfl
  rw [of, Traced.result_bind_eq_ok, hderivative]
  cases f.body.derivative f.parameter with
  | error e =>
    constructor
    · rintro ⟨_, h, -⟩
      contradiction
    · rintro ⟨_, h, -⟩
      contradiction
  | ok body =>
    constructor
    · rintro ⟨f', h, hd⟩
      obtain rfl : f.withBody body = f' := Except.ok.inj h
      exact ⟨body, rfl, Except.ok.inj hd⟩
    · rintro ⟨_, h, rfl⟩
      obtain rfl := Except.ok.inj h
      exact ⟨f.withBody body, rfl, rfl⟩

/-- A function that can be differentiated has a derivation. -/
theorem exists_of (limits : Limits) (hf : f.IsDifferentiable) :
    ∃ d, (of limits f).result = .ok d := by
  obtain ⟨body, hbody, -⟩ := Expr.IsDifferentiable.derivative hf
  exact ⟨_, result_of_eq_ok.mpr ⟨body, hbody, rfl⟩⟩

/-- The reduced derivative can be differentiated again. -/
theorem isDifferentiable_derivative (hf : f.IsDifferentiable)
    (h : (of limits f).result = .ok d) : d.derivative.IsDifferentiable := by
  obtain ⟨body, hbody, rfl⟩ := result_of_eq_ok.mp h
  obtain ⟨body', hbody', hdifferentiable⟩ := Expr.IsDifferentiable.derivative hf
  obtain rfl := Except.ok.inj (hbody.symm.trans hbody')
  exact Expr.isDifferentiable_reduce limits hdifferentiable

theorem isDifferentiable_of_result (hcalls : f.body.CallsAccepted)
    (h : (of limits f).result = .ok d) : f.IsDifferentiable := by
  obtain ⟨body, hbody, -⟩ := result_of_eq_ok.mp h
  exact Expr.isDifferentiable_of_derivative hcalls hbody

/-- What comes after a derivation whose derivative can be differentiated. -/
theorem exists_follow (h : d.derivative.IsDifferentiable) (limitsOfEach : List Limits) :
    ∃ d', (d.follow limitsOfEach).result = .ok d' := by
  induction limitsOfEach generalizing d with
  | nil => exact ⟨d, rfl⟩
  | cons limits rest ih =>
    obtain ⟨d₁, hd₁⟩ := exists_of limits h
    obtain ⟨d₂, hd₂⟩ := ih (isDifferentiable_derivative h hd₁)
    exact ⟨d₂, Traced.result_bind_eq_ok.mpr ⟨d₁, hd₁, hd₂⟩⟩

theorem exists_follow_of (hcalls : f.body.CallsAccepted) (h : (of limits f).result = .ok d)
    (limitsOfEach : List Limits) : ∃ d', (d.follow limitsOfEach).result = .ok d' :=
  exists_follow (isDifferentiable_derivative (isDifferentiable_of_result hcalls h) h) limitsOfEach

end Derivation

/-! ## Functions that are read -/

namespace Formula

variable {α : Type}

theorem callsAccepted_of_accepted? {f : Builtin} {arguments : List (Expr α)} {e : Expr α}
    (h : Expr.accepted? f arguments = some e) (harguments : ∀ x ∈ arguments, x.CallsAccepted) :
    e.CallsAccepted := by
  rcases accepted?_cases h with ⟨x, rfl, hf, rfl⟩ | ⟨x, y, rfl, hf, rfl⟩
  · exact ⟨hf, harguments x (List.mem_singleton_self x)⟩
  · obtain ⟨hx, hy⟩ := List.forall_mem_cons.mp harguments
    exact ⟨hf, hx, hy y (List.mem_singleton_self y)⟩

variable [Numeral α]

theorem isClosed_callsAccepted : IsClosed (Expr.CallsAccepted (α := α)) where
  param _ _ := trivial
  const _ _ _ := trivial
  neg _ ha := ha
  binary _ _ _ ha hb := ⟨ha, hb⟩
  call _ _ _ he harguments := callsAccepted_of_accepted? he harguments

variable [Scalar α] {limits : Limits} {text : String}

theorem result_readFunction_eq_ok {f : Lambda α} :
    (readFunction limits text).result = .ok f ↔
      ∃ body, parse limits.maxDepth (normalize text) = .ok body ∧
        (Lambda.ofBody body).withBody (body.reduce limits).expr = f := by
  have hparse : (Traced.ofParse (parseFunction limits.maxDepth (normalize text)) :
      Traced α (Lambda α)).result =
        ((parse limits.maxDepth (normalize text)).map Lambda.ofBody).mapError .parse := rfl
  rw [readFunction]
  dsimp only
  rw [Traced.result_bind_eq_ok]
  constructor
  · rintro ⟨_, -, h⟩
    obtain ⟨f₀, hf₀, h⟩ := Traced.result_bind_eq_ok.mp h
    rw [hparse] at hf₀
    cases hbody : (parse limits.maxDepth (normalize text) : Except ParseError (Expr α)) with
    | error e =>
      rw [hbody] at hf₀
      contradiction
    | ok body =>
      rw [hbody] at hf₀
      obtain rfl : Lambda.ofBody body = f₀ := Except.ok.inj hf₀
      obtain rfl := Except.ok.inj h
      exact ⟨body, rfl, by rw [Lambda.ofBody_body]⟩
  · rintro ⟨body, hbody, rfl⟩
    refine ⟨(), rfl, Traced.result_bind_eq_ok.mpr ⟨Lambda.ofBody body, ?_, ?_⟩⟩
    · rw [hparse, hbody]
      rfl
    · show Except.ok _ = Except.ok _
      rw [Lambda.ofBody_body]

/-- A text that cannot be parsed is not read. -/
theorem result_readFunction_of_error {err : ParseError}
    (h : (parse limits.maxDepth (normalize text) : Except ParseError (Expr α)) = .error err) :
    (readFunction limits text : Traced α (Lambda α)).result = .error (.parse err) := by
  have hparse : (parseFunction limits.maxDepth (normalize text) :
      Except ParseError (Lambda α)) = .error err := by
    rw [parseFunction, h]
    rfl
  simp only [readFunction, hparse]
  rfl

/-- The calls of a function that was read have as many arguments as the functions take. -/
theorem callsAccepted_readFunction {f : Lambda α} (h : (readFunction limits text).result = .ok f) :
    f.body.CallsAccepted := by
  obtain ⟨body, hbody, rfl⟩ := result_readFunction_eq_ok.mp h
  exact Expr.isLocal_callsAccepted.of_reduce Expr.isLocal_callsAccepted limits
    (isClosed_callsAccepted.of_parse hbody)

end Formula

namespace Derivation

/-- A formula can be differentiated if the function that it stands for can. -/
theorem exists_ofFormula {α : Type} [Scalar α] [Numeral α] {limits : Limits} {text : String}
    {body : Expr α} (hbody : Formula.parse limits.maxDepth (Formula.normalize text) = .ok body)
    (h : (Lambda.ofBody body).IsDifferentiable) :
    ∃ d : Derivation α, (ofFormula limits text).result = .ok d := by
  have hread := Formula.result_readFunction_eq_ok.mpr ⟨body, hbody, rfl⟩
  rw [Lambda.IsDifferentiable, Lambda.ofBody_body] at h
  have hreduced : ((Lambda.ofBody body).withBody (body.reduce limits).expr).IsDifferentiable :=
    Expr.isDifferentiable_reduce limits h
  obtain ⟨d, hd⟩ := exists_of limits hreduced
  exact ⟨d, Traced.result_bind_eq_ok.mpr ⟨_, hread, hd⟩⟩

/-- **Once differentiable, always differentiable.** A function with accepted calls that has a
derivation has a next one any number of times, with any limits, and so has every function whose
formula can be differentiated. -/
theorem follow_succeeds {α : Type} [Scalar α] [Numeral α] (limits : Limits) :
    (∀ (f : Lambda α) (d : Derivation α), f.body.CallsAccepted → (of limits f).result = .ok d →
      ∀ limitsOfEach, ∃ d', (d.follow limitsOfEach).result = .ok d') ∧
    ∀ (text : String) (d : Derivation α), (ofFormula limits text).result = .ok d →
      ∀ limitsOfEach, ∃ d', (d.follow limitsOfEach).result = .ok d' := by
  refine ⟨fun f d hcalls h => exists_follow_of hcalls h, fun text d h => ?_⟩
  obtain ⟨f, hf, hd⟩ := Traced.result_bind_eq_ok.mp h
  exact exists_follow_of (Formula.callsAccepted_readFunction hf) hd

/-- `x/(x + 1)` can be differentiated again and again, as a function and as a formula. -/
theorem follow_succeeds_of_quotient :
    let f : Lambda Binary64 :=
      ⟨"x", .quotient (.param "x") (.sum (.param "x") (.const (Numeral.ofDecimal 1 0)))⟩
    ∃ d d' : Derivation Binary64, f.body.CallsAccepted ∧ (of {} f).result = .ok d ∧
      (ofFormula {} "x/(x + 1)").result = .ok d' ∧
      (∀ limitsOfEach, ∃ d₁, (d.follow limitsOfEach).result = .ok d₁) ∧
      ∀ limitsOfEach, ∃ d₁, (d'.follow limitsOfEach).result = .ok d₁ := by
  intro f
  have hcalls : f.body.CallsAccepted := ⟨trivial, trivial, trivial⟩
  have hf : f.IsDifferentiable := ⟨trivial, trivial, trivial⟩
  obtain ⟨d, hd⟩ := exists_of {} hf
  have htokens : Formula.tokens "x/(x + 1)".toList = [.letter 'x', .operator .divide, .openParen,
      .letter 'x', .operator .plus, .number ['1'], .closeParen] := by
    rw [Formula.tokens_eq]
    decide
  have hreads : Formula.Reads .sum (Formula.tokens "x/(x + 1)".toList) f.body := by
    rw [htokens]
    exact .binary .letter .divide (.group (.binary .letter .plus (.number rfl)))
  have hparse : Formula.parse ({} : Limits).maxDepth (Formula.normalize "x/(x + 1)") =
      .ok (.sum (.const (Numeral.ofDecimal 0 0)) f.body) :=
    hreads.parse_normalize (by decide)
  have hread : (Lambda.ofBody (.sum (.const (Numeral.ofDecimal 0 0)) f.body)).IsDifferentiable :=
    ⟨trivial, hf⟩
  obtain ⟨d', hformula⟩ := exists_ofFormula hparse hread
  exact ⟨d, d', hcalls, hd, hformula, (follow_succeeds {}).1 f d hcalls hd,
    (follow_succeeds {}).2 "x/(x + 1)" d' hformula⟩

end Derivation

end SymbolicCalculus
