import SymbolicCalculus.Expr.Coefficient

/-!
# Rules

The rules for each kind of node, in order of priority: the first one that matches a node replaces
it. `Expr.replacement?` picks that rule.
-/

namespace SymbolicCalculus

/-- A rule replaces a node with two operands, if it matches them. -/
structure Rule (α : Type) where
  name : String
  replace? : Expr α → Expr α → Option (Expr α)

namespace Rule

open SymbolicCalculus.Expr

variable {α : Type} [Scalar α]

/-- The value of an operator node with constant operands, if it is a number. -/
def fold? (op : Operator) : Expr α → Expr α → Option (Expr α)
  | const a, const b => (op.result? a b).map const
  | _, _ => none

/-- A constant below zero, with its sign dropped. -/
def flip? : Expr α → Option (Expr α)
  | const a => if a < Nat.cast 0 then some (const (Scalar.magnitude a)) else none
  | _ => none

/-- The rules for `a + b`. -/
def sums : List (Rule α) := [
  ⟨"0 + x = x", fun a b => if a.isZero then some b else none⟩,
  ⟨"x + 0 = x", fun a b => if b.isZero then some a else none⟩,
  ⟨"fold addition", fold? .plus⟩,
  ⟨"x + x = 2*x", fun a b => if a == b then some (product (nat 2) a) else none⟩,
  ⟨"x + (-y) = x - y", fun
    | a, neg y => some (difference a y)
    | _, _ => none⟩]

/-- The rules for `a - b`. -/
def differences : List (Rule α) := [
  ⟨"x - 0 = x", fun a b => if b.isZero then some a else none⟩,
  ⟨"0 - k = -k", fun
    | a, const k => if a.isZero then some (const (-k)) else none
    | _, _ => none⟩,
  ⟨"fold subtraction", fold? .minus⟩,
  ⟨"x - x = 0", fun a b => if a == b then some (nat 0) else none⟩,
  ⟨"(A + B) - A = B", fun
    | sum x y, b => if x == b then some y else none
    | _, _ => none⟩,
  ⟨"(A + B) - B = A", fun
    | sum x y, b => if y == b then some x else none
    | _, _ => none⟩,
  ⟨"A - (A + B) = -B", fun
    | a, sum x y => if x == a then some (neg y) else none
    | _, _ => none⟩,
  ⟨"B - (A + B) = -A", fun
    | a, sum x y => if y == a then some (neg x) else none
    | _, _ => none⟩,
  ⟨"x - (-k) = x + k", fun a b => (flip? b).map (sum a)⟩,
  ⟨"x - (-k*y) = x + k*y", fun
    | a, product x y => (flip? x).map fun k => sum a (product k y)
    | _, _ => none⟩,
  ⟨"x - (y*-k) = x + y*k", fun
    | a, product x y => (flip? y).map fun k => sum a (product x k)
    | _, _ => none⟩,
  ⟨"x - (-y) = x + y", fun
    | a, neg y => some (sum a y)
    | _, _ => none⟩,
  ⟨"0 - x = -x", fun a b => if a.isZero then some (neg b) else none⟩]

/-- The rules for `a * b`. -/
def products : List (Rule α) := [
  ⟨"0 * x = 0", fun a b => if a.isZero || b.isZero then some (nat 0) else none⟩,
  ⟨"1 * x = x", fun a b => if a.isOne then some b else none⟩,
  ⟨"x * 1 = x", fun a b => if b.isOne then some a else none⟩,
  ⟨"fold multiplication", fold? .times⟩,
  ⟨"k*(k'*x) = (k*k')*x", mergeCoefficients?⟩,
  ⟨"A * (1/B) = A/B", fun
    | a, quotient x y => if x.isOne then some (quotient a y) else none
    | _, _ => none⟩,
  ⟨"(1/B) * A = A/B", fun
    | quotient x y, b => if x.isOne then some (quotient b y) else none
    | _, _ => none⟩,
  ⟨"(B/A) * A = B", fun
    | quotient x y, b => if y == b then some x else none
    | _, _ => none⟩,
  ⟨"A * (B/A) = B", fun
    | a, quotient x y => if y == a then some x else none
    | _, _ => none⟩]

/-- The rules for `a / b`. -/
def quotients : List (Rule α) := [
  ⟨"x / 1 = x", fun a b => if b.isOne then some a else none⟩,
  ⟨"0 / x = 0", fun a b => if a.isZero && !b.isZero then some (nat 0) else none⟩,
  ⟨"fold division", fold? .divide⟩,
  ⟨"x / x = 1", fun a b => if a == b && !b.isZero then some (nat 1) else none⟩,
  ⟨"(A*B)/A = B", fun
    | product x y, b => if x == b then some y else none
    | _, _ => none⟩,
  ⟨"(A*B)/B = A", fun
    | product x y, b => if y == b then some x else none
    | _, _ => none⟩,
  ⟨"(A^B)/A = A^(B - 1)", fun
    | power x n, b => if x == b then some (power x (difference n (nat 1))) else none
    | _, _ => none⟩,
  ⟨"(Y/X^N)/X = Y/X^(N + 1)", fun
    | quotient y (power x n), b =>
      if x == b then some (quotient y (power b (sum n (nat 1)))) else none
    | _, _ => none⟩,
  ⟨"(Y/X)/X = Y/X^2", fun
    | quotient y x, b => if x == b then some (quotient y (power b (nat 2))) else none
    | _, _ => none⟩]

/-- The rules for `a ^ b`. -/
def powers : List (Rule α) := [
  ⟨"x^1 = x", fun a b => if b.isOne then some a else none⟩,
  ⟨"x^0 = 1", fun _ b => if b.isZero then some (nat 1) else none⟩,
  ⟨"fold power", fold? .power⟩,
  ⟨"(a^b)^c = a^(b*c)", fun
    | power x n, b => some (power x (product n b))
    | _, _ => none⟩]

/-- The rules for an operator. -/
def forOperator : Operator → List (Rule α)
  | .plus => sums
  | .minus => differences
  | .times => products
  | .divide => quotients
  | .power => powers

/-- What the first rule that matches two operands makes of them, with its name. -/
def firstMatch? (rules : List (Rule α)) (a b : Expr α) : Option (String × Expr α) :=
  rules.findSome? fun rule => (rule.replace? a b).map (rule.name, ·)

end Rule

namespace Expr

variable {α : Type} [Scalar α]

/-- What the first rule that matches a node makes of it, with the rule's name. -/
def replacement? : Expr α → Option (String × Expr α)
  | binary op a b => Rule.firstMatch? (Rule.forOperator op) a b
  | neg (const k) => some ("-(k) = -k", const (-k))
  | neg (neg e) => some ("-(-x) = x", e)
  | _ => none

end Expr

end SymbolicCalculus
