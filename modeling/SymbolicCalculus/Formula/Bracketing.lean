import SymbolicCalculus.Formula.Term
import SymbolicCalculus.Formula.Token

/-!
# Bracketing

Precedence and unsaid products made explicit. Sums and differences bind weakest, then products and
quotients, then powers; powers associate to the right and all else to the left. A sign takes the
operand after it with its exponents, and a plus sign is dropped. A text that is no such formula is
only cut into tokens and put together again, and it is left to the parser to say what is wrong.
-/

namespace SymbolicCalculus

/-- How strongly an operator holds its operands. -/
inductive Precedence where
  | additive
  | multiplicative
  | exponent
  deriving DecidableEq

namespace Precedence

def rank : Precedence → Nat
  | additive => 0
  | multiplicative => 1
  | exponent => 2

end Precedence

namespace Operator

def precedence : Operator → Precedence
  | plus | minus => .additive
  | times | divide => .multiplicative
  | power => .exponent

/-- The weakest operators that the right operand may hold unbracketed. -/
def rightPrecedence : Operator → Precedence
  | plus | minus => .multiplicative
  | times | divide | power => .exponent

end Operator

namespace Term

/-- Something read from the front of a list of tokens, and the fewer than `bound` tokens after
it. -/
structure Reading (β : Type) (bound : Nat) where
  value : β
  rest : List Token
  shorter : rest.length < bound

namespace Reading

variable {β γ : Type} {m n : Nat}

/-- What was read turned into something else. -/
def map (f : β → γ) (r : Reading β n) : Reading γ n :=
  ⟨f r.value, r.rest, r.shorter⟩

/-- The same reading, as one from a longer list. -/
def weaken (h : m ≤ n) (r : Reading β m) : Reading β n :=
  ⟨r.value, r.rest, Nat.lt_of_lt_of_le r.shorter h⟩

end Reading

mutual

/-- An operand, and the operators after it that are no weaker than `min` with their operands. -/
def expression? (min : Precedence) (ts : List Token) : Option (Reading Term ts.length) :=
  match operand? ts with
  | none => none
  | some left =>
    have := left.shorter
    (climb? min left.value left.rest).map fun r => r.weaken left.shorter
termination_by (ts.length, 2)

/-- The term `left`, joined with the operands after the operators that are no weaker than
`min`. -/
def climb? (min : Precedence) (left : Term) (ts : List Token) :
    Option (Reading Term (ts.length + 1)) :=
  match ts with
  | .operator op :: rest =>
    if op.precedence.rank < min.rank then
      some ⟨left, .operator op :: rest, Nat.lt_succ_self _⟩
    else
      match expression? op.rightPrecedence rest with
      | none => none
      | some right =>
        have := right.shorter
        (climb? min (binary op left right.value) right.rest).map fun r =>
          r.weaken (Nat.succ_le_succ (Nat.le_succ_of_le (Nat.le_of_lt right.shorter)))
  | ts => some ⟨left, ts, Nat.lt_succ_self _⟩
termination_by (ts.length, 0)

/-- A number, a letter, a call, or a formula between parentheses, with any signs before it. -/
def operand? (ts : List Token) : Option (Reading Term ts.length) :=
  match ts with
  | .operator .minus :: rest =>
    (expression? .exponent rest).map fun r => (r.map neg).weaken (Nat.le_succ _)
  | .operator .plus :: rest =>
    (expression? .exponent rest).map fun r => r.weaken (Nat.le_succ _)
  | .number digits :: rest => some ⟨number digits, rest, Nat.lt_succ_self _⟩
  | .letter c :: rest => some ⟨letter c, rest, Nat.lt_succ_self _⟩
  | .openParen :: rest =>
    match expression? .additive rest with
    | some ⟨t, .closeParen :: rest', h⟩ =>
      some ⟨t, rest', Nat.lt_succ_of_lt (Nat.lt_of_succ_lt h)⟩
    | _ => none
  | .function f :: .openParen :: rest =>
    (arguments? rest).map fun r => (r.map (call f)).weaken (Nat.le_add_right _ 2)
  | _ => none
termination_by (ts.length, 1)

/-- Formulas with commas between them, up to the closing parenthesis and with it. -/
def arguments? (ts : List Token) : Option (Reading (List Term) ts.length) :=
  match expression? .additive ts with
  | some ⟨t, .comma :: rest, h⟩ =>
    have : rest.length < ts.length := Nat.lt_of_succ_lt h
    (arguments? rest).map fun r => (r.map (t :: ·)).weaken (Nat.le_of_lt this)
  | some ⟨t, .closeParen :: rest, h⟩ =>
    some ⟨[t], rest, Nat.lt_of_succ_lt h⟩
  | _ => none
termination_by (ts.length, 3)

end

/-- The term that all the tokens make up. -/
def ofTokens? (ts : List Token) : Option Term :=
  match expression? .additive ts with
  | some ⟨t, [], _⟩ => some t
  | _ => none

end Term

namespace Formula

/-- The tokens of a formula, unsaid products included. -/
def tokens (cs : List Char) : List Token :=
  Token.withProducts (Token.ofChars cs)

/-- A formula with its parentheses written out. -/
def bracketed (cs : List Char) : List Char :=
  match Term.ofTokens? (tokens cs) with
  | some t => t.chars
  | none => (tokens cs).flatMap Token.chars

/-- A formula with precedence and unsaid products made explicit. -/
def parenthesize (text : String) : String :=
  String.ofList (bracketed text.toList)

/-- The form that functions are read from, in which the formula is the second operand of an
outermost sum. -/
def normalize (text : String) : String :=
  String.ofList (['0', '+', '('] ++ bracketed text.toList ++ [')'])

end Formula

end SymbolicCalculus
