import SymbolicCalculus.Formula.Literal

/-!
# Tokens

A formula as a list of tokens. Blanks only separate; a letter is a parameter by itself, unless it
starts the name of a function that is called. `withProducts` writes out the products that a formula
leaves unsaid.
-/

namespace SymbolicCalculus

/-- A word of a formula. -/
inductive Token where
  | number (digits : List Char)
  | letter (c : Char)
  | function (f : Builtin)
  | openParen
  | closeParen
  | comma
  | operator (op : Operator)
  /-- A character that starts no other token. -/
  | unknown (c : Char)
  deriving DecidableEq

namespace Token

/-- The token as it is written out again. -/
def chars : Token → List Char
  | number digits => digits
  | letter c => [c]
  | function f => f.letters
  | openParen => ['(']
  | closeParen => [')']
  | comma => [',', ' ']
  | operator op => [op.symbol]
  | unknown c => [c]

/-- Can an operand end with the token? -/
def endsOperand : Token → Bool
  | number _ | letter _ | closeParen => true
  | _ => false

/-- Can an operand start with the token? -/
def startsOperand : Token → Bool
  | number _ | letter _ | function _ | openParen => true
  | _ => false

/-- The first token of a text that starts with the character `c`, and the text after it. -/
def first (c : Char) (rest : List Char) : Token × List Char :=
  match Operator.ofSymbol? c with
  | some op => (operator op, rest)
  | none =>
    if c = '(' then (openParen, rest)
    else if c = ')' then (closeParen, rest)
    else if c = ',' then (comma, rest)
    else if c.isDigit || c = '.' then
      match Literal.literal? (c :: rest) with
      | some (digits, rest') => (number digits, rest')
      | none => (unknown c, rest)
    else if c.isAlpha then
      match Builtin.called? (c :: rest) with
      | some (f, rest') => (function f, rest')
      | none => (letter c, rest)
    else (unknown c, rest)

theorem length_first_le (c : Char) (rest : List Char) :
    (first c rest).2.length ≤ rest.length := by
  unfold first
  repeat' split
  all_goals first
    | exact Nat.le_refl _
    | next h => exact Nat.le_of_lt_succ (Literal.length_of_literal? h)
    | next h => exact Nat.le_of_lt_succ (Builtin.length_of_called? h)

/-- The tokens of a text. -/
def ofChars : List Char → List Token
  | [] => []
  | c :: rest =>
    if Text.isBlank c then ofChars rest
    else
      have := length_first_le c rest
      (first c rest).1 :: ofChars (first c rest).2
termination_by cs => cs.length

/-- The tokens with a product sign between every two operands that stand next to each other. -/
def withProducts : List Token → List Token
  | a :: b :: rest =>
    if a.endsOperand && b.startsOperand then a :: operator .times :: withProducts (b :: rest)
    else a :: withProducts (b :: rest)
  | ts => ts

end Token

end SymbolicCalculus
