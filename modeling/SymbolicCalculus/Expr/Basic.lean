import SymbolicCalculus.Scalar

/-!
# Expressions

An expression over some type of numbers: parameters and constants, joined by operators, negations
and calls of builtin functions. A call is built from at most two arguments; one without arguments
has no meaning but is an expression all the same. Two expressions are equal (`==`) when they have
the same shape and their constants the same values.
-/

namespace SymbolicCalculus

/-- An expression with constants in `α`. -/
inductive Expr (α : Type) where
  | param (name : String)
  | const (value : α)
  | binary (op : Operator) (left right : Expr α)
  | neg (inner : Expr α)
  | call₀ (f : Builtin)
  | call₁ (f : Builtin) (x : Expr α)
  | call₂ (f : Builtin) (x y : Expr α)
  deriving DecidableEq

namespace Expr

variable {α : Type}

/-! ## Shorthands -/

@[match_pattern] abbrev sum (a b : Expr α) : Expr α := binary .plus a b
@[match_pattern] abbrev difference (a b : Expr α) : Expr α := binary .minus a b
@[match_pattern] abbrev product (a b : Expr α) : Expr α := binary .times a b
@[match_pattern] abbrev quotient (a b : Expr α) : Expr α := binary .divide a b
@[match_pattern] abbrev power (a b : Expr α) : Expr α := binary .power a b

/-- A natural number as a constant. -/
abbrev nat [NatCast α] (n : Nat) : Expr α := const (Nat.cast n)

/-! ## Equality -/

/-- Same shape, same operators, functions and parameters, and constants of the same value. -/
def sameAs [BEq α] : Expr α → Expr α → Bool
  | param p, param q => p == q
  | const a, const b => a == b
  | binary op a b, binary op' a' b' => op == op' && a.sameAs a' && b.sameAs b'
  | neg a, neg a' => a.sameAs a'
  | call₀ f, call₀ g => f == g
  | call₁ f x, call₁ g x' => f == g && x.sameAs x'
  | call₂ f x y, call₂ g x' y' => f == g && x.sameAs x' && y.sameAs y'
  | _, _ => false

instance [BEq α] : BEq (Expr α) := ⟨sameAs⟩

instance [BEq α] [ReflBEq α] : ReflBEq (Expr α) where
  rfl {e} := by
    show sameAs e e = true
    induction e <;> simp_all [sameAs]

instance [BEq α] [LawfulBEq α] : LawfulBEq (Expr α) where
  eq_of_beq {a b} h := by
    replace h : sameAs a b = true := h
    induction a generalizing b <;> cases b <;> simp_all [sameAs] <;> grind

/-! ## Calls -/

/-- A call as an expression, if there are no more than two arguments. -/
def ofCall? (f : Builtin) : List (Expr α) → Option (Expr α)
  | [] => some (call₀ f)
  | [x] => some (call₁ f x)
  | [x, y] => some (call₂ f x y)
  | _ => none

/-- The call of a function that accepts so many arguments. -/
def accepted? (f : Builtin) (arguments : List (Expr α)) : Option (Expr α) :=
  if f.accepts arguments.length then ofCall? f arguments else none

theorem accepted?_isSome (f : Builtin) (arguments : List (Expr α)) :
    (accepted? f arguments).isSome = f.accepts arguments.length := by
  unfold accepted?
  split
  · next h =>
    have hlen := Builtin.le_two_of_accepts h
    rw [h]
    match arguments with
    | [] | [_] | [_, _] => rfl
    | _ :: _ :: _ :: _ => simp at hlen
  · next h => simp [h]

/-! ## Parts and tests -/

/-- How many nodes there are. -/
def size : Expr α → Nat
  | param _ | const _ | call₀ _ => 1
  | binary _ a b => a.size + b.size + 1
  | neg a => a.size + 1
  | call₁ _ x => x.size + 1
  | call₂ _ x y => x.size + y.size + 1

/-- How many nodes there are above the deepest leaf. -/
def height : Expr α → Nat
  | param _ | const _ => 0
  | binary _ a b => max a.height b.height + 1
  | neg a => a.height + 1
  | call₀ _ => 1
  | call₁ _ x => x.height + 1
  | call₂ _ x y => max x.height y.height + 1

theorem size_pos (e : Expr α) : 0 < e.size := by
  cases e <;> simp [size]

/-- The value of a constant. -/
def constant? : Expr α → Option α
  | const a => some a
  | _ => none

/-- Constants and parameters have no parts. -/
def isLeaf : Expr α → Bool
  | param _ | const _ => true
  | _ => false

/-- Is it the constant zero? -/
def isZero [Scalar α] : Expr α → Bool
  | const a => Scalar.isZero a
  | _ => false

/-- Is it the constant one? -/
def isOne [Scalar α] : Expr α → Bool
  | const a => Scalar.isOne a
  | _ => false

/-- The operands of an operator, if this is what joins them. -/
def operands? (op : Operator) : Expr α → Option (Expr α × Expr α)
  | binary op' a b => if op' = op then some (a, b) else none
  | _ => none

/-- What is raised to a power. -/
def powerBase? : Expr α → Option (Expr α)
  | power a _ => some a
  | _ => none

/-- Does the expression mention a parameter? -/
def dependsOn (p : String) : Expr α → Bool
  | param q => q == p
  | const _ | call₀ _ => false
  | binary _ a b => a.dependsOn p || b.dependsOn p
  | neg a => a.dependsOn p
  | call₁ _ x => x.dependsOn p
  | call₂ _ x y => x.dependsOn p || y.dependsOn p

/-- The parameter that stands leftmost. -/
def firstParameter? : Expr α → Option String
  | param p => some p
  | const _ | call₀ _ => none
  | binary _ a b => a.firstParameter?.orElse fun _ => b.firstParameter?
  | neg a => a.firstParameter?
  | call₁ _ x => x.firstParameter?
  | call₂ _ x y => x.firstParameter?.orElse fun _ => y.firstParameter?

end Expr

end SymbolicCalculus
