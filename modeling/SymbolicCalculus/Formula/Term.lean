import SymbolicCalculus.Expr.Basic
import SymbolicCalculus.Formula.Literal

/-!
# Terms

The shape of a formula: what the operators join, before numbers are given a value and calls are
checked. A term is written with parentheses around every operator node and every negation.
-/

namespace SymbolicCalculus

/-- The shape of a formula. -/
inductive Term where
  | number (digits : List Char)
  | letter (c : Char)
  | neg (inner : Term)
  | binary (op : Operator) (left right : Term)
  | call (f : Builtin) (arguments : List Term)

namespace Term

mutual

/-- The term with all its parentheses. -/
def chars : Term → List Char
  | number digits => digits
  | letter c => [c]
  | neg t => '(' :: '-' :: t.chars ++ [')']
  | binary op a b => '(' :: a.chars ++ op.symbol :: b.chars ++ [')']
  | call f arguments => f.letters ++ '(' :: argumentChars arguments ++ [')']

/-- The arguments of a call, with a comma and a space between them. -/
def argumentChars : List Term → List Char
  | [] => []
  | [t] => t.chars
  | t :: ts => t.chars ++ [',', ' '] ++ argumentChars ts

end

end Term

end SymbolicCalculus
