import SymbolicCalculus.Derivation

/-!
# Sessions

One function at a time, which commands replace, and the limits that they keep to. A command that
fails leaves the session as it was: `after_of_error`.
-/

namespace SymbolicCalculus

/-- The limits in force and the current function, at first zero. -/
structure Session (α : Type) where
  limits : Limits
  function : Lambda α

/-- What a session can be told to do. -/
inductive Command (α : Type) where
  | setLimits (limits : Limits)
  /-- Take the function of a formula as it stands. -/
  | parse (text : String)
  /-- Take the function of a formula, reduced. -/
  | read (text : String)
  /-- Take the derivative of a formula. -/
  | differentiate (text : String)
  /-- Take the reduced derivative, and look at the one after it. -/
  | next
  /-- Take the derivative without reducing it. -/
  | derive
  | reduce
  | reduceOnce
  | factor
  | expandOnce
  | expand
  | rebind (parameter : String)
  | substitute (value : Expr α) (parameter : String)
  | call (value : α)

/-- What a command answers. -/
inductive Answer (α : Type) where
  | done
  | function (f : Lambda α)
  | revised (f : Lambda α) (changed : Bool)
  | derivation (d : Derivation α)
  /-- The second derivation may be one that failed. -/
  | derivations (first : Derivation α) (second : Except (Failure α) (Derivation α))
  | value (v : α)

namespace Session

variable {α : Type}

/-- A session that starts with the function zero. -/
def start [NatCast α] (limits : Limits) : Session α :=
  ⟨limits, ⟨"x", .nat 0⟩⟩

/-- The session with another function, which is the answer. -/
def take (s : Session α) (f : Lambda α) : Answer α × Session α :=
  (.function f, { s with function := f })

/-- The session with the body of its function revised. -/
def revise (s : Session α) (r : Revision α) : Traced α (Answer α × Session α) := do
  let (body, changed) ← Traced.ofRevision r
  let f := s.function.withBody body
  return (.revised f changed, { s with function := f })

variable [Scalar α] [Numeral α] [Elementary α]

/-- The answer to a command, and the session after it. A formula that is only parsed may nest as
deep as by default, whatever the limits in force. -/
def step (s : Session α) : Command α → Traced α (Answer α × Session α)
  | .setLimits limits => return (.done, { s with limits })
  | .parse text => do
    let f ← Traced.ofParse (Formula.parseFunction ({} : Limits).maxDepth (Formula.normalize text))
    return s.take f
  | .read text => return s.take (← Formula.readFunction s.limits text)
  | .differentiate text => do
    let d ← Derivation.ofFormula s.limits text
    return (.derivation d, { s with function := d.derivative })
  | .next => do
    let d ← Derivation.of s.limits s.function
    let second := d.next s.limits
    ⟨second.events, .ok (.derivations d second.result, { s with function := d.derivative })⟩
  | .derive => return s.take (← Traced.ofSupported s.function.derivative)
  | .reduce => s.revise (s.function.body.reduce s.limits)
  | .reduceOnce => s.revise (s.function.body.reduceOnce s.limits)
  | .factor => s.revise s.function.body.factored
  | .expandOnce => s.revise s.function.body.expandOnce
  | .expand => s.revise (s.function.body.expand s.limits)
  | .rebind parameter => return s.take { s.function with parameter }
  | .substitute value parameter =>
    return s.take (s.function.withBody (s.function.body.substitute parameter value))
  | .call value => return (.value (← Traced.ofEvaluation (s.function.call value)), s)

/-- The session after a command. -/
def after (s : Session α) (command : Command α) : Session α :=
  match (s.step command).result with
  | .ok (_, s') => s'
  | .error _ => s

theorem after_of_error {s : Session α} {command : Command α} {e : Failure α}
    (h : (s.step command).result = .error e) : s.after command = s := by
  simp [after, h]

end Session

end SymbolicCalculus
