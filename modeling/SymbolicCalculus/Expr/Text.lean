import SymbolicCalculus.Expr.Basic

/-!
# The canonical text of an expression

Every operand that is itself an operator node, a negation or a number with a sign is put between
parentheses, so that the text needs no precedence to be read back.
-/

namespace SymbolicCalculus

/-- How an operator is written between its operands. -/
def Operator.spelling : Operator → List Char
  | plus => [' ', '+', ' ']
  | minus => [' ', '-', ' ']
  | times => ['*']
  | divide => ['/']
  | power => ['^']

namespace Expr

variable {α : Type} [Numeral α]

/-- Is the expression put between parentheses where it is an operand? -/
def isCompound : Expr α → Bool
  | const a => Numeral.isNegative a
  | neg _ | binary _ _ _ => true
  | _ => false

/-- The text of an operand, given the text of the expression by itself. -/
def enclosed (e : Expr α) (text : List Char) : List Char :=
  if e.isCompound then '(' :: text ++ [')'] else text

/-- The characters of the canonical text. -/
def chars : Expr α → List Char
  | param p => p.toList
  | const a => Numeral.text a
  | binary op a b => a.enclosed a.chars ++ op.spelling ++ b.enclosed b.chars
  | neg a => '-' :: a.enclosed a.chars
  | call₀ f => f.letters ++ ['(', ')']
  | call₁ f x => f.letters ++ '(' :: x.chars ++ [')']
  | call₂ f x y => f.letters ++ '(' :: x.chars ++ [',', ' '] ++ y.chars ++ [')']

/-- The canonical text. -/
def text (e : Expr α) : String :=
  String.ofList e.chars

end Expr

end SymbolicCalculus
