import SymbolicCalculus.Derivative

/-!
# Where differentiation fails

`Expr.derivative_eq_error_iff`: a derivative is refused exactly for the first node that there is no
rule for, among the nodes that differentiation reaches. It reaches an operand before it looks at the
operand to the right of it, and never enters an exponent or the second argument of a call: what
stands there is searched for the parameter instead, before the base or the first argument is
entered.
-/

namespace SymbolicCalculus

/-! ## Failures of a run -/

section failure

variable {ε β γ δ : Type}

/-- How a run fails, if it does. -/
def failure? : Except ε β → Option ε
  | .ok _ => none
  | .error err => some err

theorem failure?_eq_some {x : Except ε β} {err : ε} : failure? x = some err ↔ x = .error err := by
  cases x <;> simp [failure?]

theorem failure?_return (x : Except ε β) (f : β → γ) :
    failure? (do let b ← x; return f b) = failure? x := by
  cases x <;> rfl

/-- A run that combines two results fails as the first of them does, or else as the second. -/
theorem failure?_both (x : Except ε β) (y : Except ε γ) (f : β → γ → δ) :
    failure? (do let b ← x; let c ← y; return f b c) = (failure? x).or (failure? y) := by
  cases x <;> cases y <;> rfl

/-- A run that makes a check first fails there if the check does. -/
theorem failure?_check (test : Bool) (err : ε) (x : Except ε β) (f : β → γ) :
    failure? (do
      if test then throw err
      let b ← x
      return f b) = if test then some err else failure? x := by
  cases test with
  | true => rfl
  | false => exact failure?_return x f

end failure

variable {α : Type}

namespace Expr

/-! ## What is reached, and what there is no rule for -/

/-- The nodes that differentiation reaches from the root: all but those in an exponent or in the
second argument of a call. A node stands before its operands, and the left operand before the right
one. -/
def reached : Expr α → List (Expr α)
  | param q => [param q]
  | const k => [const k]
  | power a n => power a n :: a.reached
  | binary op a b => binary op a b :: (a.reached ++ b.reached)
  | neg a => neg a :: a.reached
  | call₀ f => [call₀ f]
  | call₁ f x => call₁ f x :: x.reached
  | call₂ f x y => call₂ f x y :: x.reached

/-- What there is no rule for at a node: an exponent or a second argument that mentions the
parameter, and a call without arguments. -/
def obstacle? (p : String) : Expr α → Option (Unsupported α)
  | power _ n => if n.dependsOn p then some (.symbolicExponent n) else none
  | call₂ _ _ y => if y.dependsOn p then some (.variableLogBase y) else none
  | call₀ f => some (.wrongArity f 0)
  | _ => none

theorem obstacle?_eq_some {p : String} {node : Expr α} {u : Unsupported α} :
    node.obstacle? p = some u ↔
      (∃ a n, node = power a n ∧ n.dependsOn p = true ∧ .symbolicExponent n = u) ∨
      (∃ f x y, node = call₂ f x y ∧ y.dependsOn p = true ∧ .variableLogBase y = u) ∨
      ∃ f, node = call₀ f ∧ .wrongArity f 0 = u := by
  cases node with
  | binary op a b => cases op <;> simp [obstacle?, and_assoc]
  | _ => simp [obstacle?, and_assoc]

/-- The first obstacle among the nodes that are reached. -/
def firstObstacle? (p : String) (e : Expr α) : Option (Unsupported α) :=
  e.reached.findSome? (obstacle? p)

/-- A node that lacks something where a test succeeds stands before the nodes below it. -/
theorem findSome?_cons_of_check {β γ : Type} {f : β → Option γ} {node : β} {rest : List β}
    {test : Bool} {u : γ} (hnode : f node = if test then some u else none) :
    (node :: rest).findSome? f = if test then some u else rest.findSome? f := by
  rw [List.findSome?_cons, hnode]
  cases test <;> rfl

section firstObstacle

variable (p : String) (a b : Expr α)

theorem firstObstacle?_neg : (neg a).firstObstacle? p = a.firstObstacle? p :=
  rfl

theorem firstObstacle?_call₁ (f : Builtin) :
    (call₁ f a).firstObstacle? p = a.firstObstacle? p :=
  rfl

theorem firstObstacle?_power :
    (power a b).firstObstacle? p =
      if b.dependsOn p then some (.symbolicExponent b) else a.firstObstacle? p :=
  findSome?_cons_of_check rfl

theorem firstObstacle?_binary {op : Operator} (hop : op ≠ .power) :
    (binary op a b).firstObstacle? p = (a.firstObstacle? p).or (b.firstObstacle? p) := by
  cases op with
  | power => contradiction
  | plus | minus | times | divide => exact List.findSome?_append

theorem firstObstacle?_call₂ (f : Builtin) :
    (call₂ f a b).firstObstacle? p =
      if b.dependsOn p then some (.variableLogBase b) else a.firstObstacle? p :=
  findSome?_cons_of_check rfl

end firstObstacle

/-! ## Differentiation fails at the first obstacle -/

variable [NatCast α]

/-- The induction follows the rules. The rules with two derivatives take them from left to right, so
the nodes of the left operand come first; the rules with a check make it before they go on, so the
node comes before those below it. -/
theorem failure?_derivative (p : String) (e : Expr α) :
    failure? (e.derivative p) = e.firstObstacle? p := by
  induction e with
  | param q => rfl
  | const k => rfl
  | binary op a b iha ihb =>
    cases op with
    | power =>
      rw [firstObstacle?_power, ← iha]
      exact failure?_check _ _ _ _
    | plus | minus | times | divide =>
      rw [firstObstacle?_binary p a b (by decide), ← iha, ← ihb]
      exact failure?_both _ _ _
  | neg a ih =>
    rw [firstObstacle?_neg, ← ih]
    exact failure?_return _ _
  | call₀ f => rfl
  | call₁ f x ih =>
    rw [firstObstacle?_call₁, ← ih]
    exact failure?_return _ _
  | call₂ f x y ihx _ =>
    rw [firstObstacle?_call₂, ← ihx]
    exact failure?_check _ _ _ _

/-- **Differentiation fails where it must, at the first such place.** It fails with an error exactly
if that is what the first node with an obstacle lacks, so it fails exactly if a node that it reaches
is a power whose exponent mentions the parameter, a call whose second argument mentions it, or a
call without arguments. It never complains of a function's name or of a function's parameters. -/
theorem derivative_eq_error_iff (p : String) (e : Expr α) :
    (∀ u, e.derivative p = .error u ↔ e.reached.findSome? (obstacle? p) = some u) ∧
    ((∃ u, e.derivative p = .error u) ↔ ∃ node ∈ e.reached,
      (∃ a n, node = power a n ∧ n.dependsOn p = true) ∨
      (∃ f x y, node = call₂ f x y ∧ y.dependsOn p = true) ∨ ∃ f, node = call₀ f) ∧
    ∀ u, e.derivative p = .error u →
      (∀ name, u ≠ .unknownFunction name) ∧ ∀ found, u ≠ .parameterCount found := by
  have hiff : ∀ u, e.derivative p = .error u ↔ e.reached.findSome? (obstacle? p) = some u := by
    intro u
    rw [← failure?_eq_some, failure?_derivative, firstObstacle?]
  refine ⟨hiff, ?_, ?_⟩
  · have hsome : (∃ u, e.derivative p = .error u) ↔
        ∃ node ∈ e.reached, ∃ u, node.obstacle? p = some u := by
      simp only [hiff, ← Option.isSome_iff_exists, List.findSome?_isSome_iff]
    simp only [hsome, obstacle?_eq_some]
    grind
  · intro u hu
    obtain ⟨node, -, hnode⟩ := List.exists_of_findSome?_eq_some ((hiff u).mp hu)
    obtain ⟨_, _, _, _, rfl⟩ | ⟨_, _, _, _, _, rfl⟩ | ⟨_, _, rfl⟩ := obstacle?_eq_some.mp hnode <;>
      simp

end Expr

end SymbolicCalculus
