import SymbolicCalculus.Expr.Basic
import SymbolicCalculus.Formula.Nesting
import SymbolicCalculus.Formula.ParseError

/-!
# The parser

A parser for texts with all their parentheses. It knows no precedence: within a group, which is the
text between two parentheses, an argument of a call or the whole text, each operand is joined to
what stands to its left by the operator before it.

    group    := operand (OPERATOR operand)*
    operand  := "-" operand | "+" operand | "(" group ")"
              | FUNCTION "(" group ("," group)* ")" | NUMBER | LETTER
-/

namespace SymbolicCalculus

/-- What was read of a group: the operand on the left, the operator that waits for an operand, and
the minus signs before that operand. -/
structure Accumulator (α : Type) where
  left? : Option (Expr α) := none
  pending? : Option Operator := none
  negations : Nat := 0

namespace Accumulator

variable {α : Type}

/-- Is an operand the next thing to read? -/
def expectsOperand (acc : Accumulator α) : Bool :=
  acc.left?.isNone || acc.pending?.isSome

/-- An operator between two operands, or a sign before one. -/
def operator (acc : Accumulator α) (op : Operator) (index : Nat) :
    Except ParseError (Accumulator α) :=
  if acc.expectsOperand then
    match op with
    | .minus => .ok { acc with negations := acc.negations + 1 }
    | .plus => .ok acc
    | _ => .error (.missingOperand index)
  else .ok { acc with pending? := some op }

/-- The expression under so many minus signs. -/
def negated : Nat → Expr α → Expr α
  | 0, e => e
  | n + 1, e => negated n (.neg e)

/-- An operand. -/
def operand (acc : Accumulator α) (e : Expr α) (index : Nat) :
    Except ParseError (Accumulator α) :=
  let e := negated acc.negations e
  match acc.left?, acc.pending? with
  | none, _ => .ok { left? := some e }
  | some left, some op => .ok { left? := some (.binary op left e) }
  | some _, none => .error (.missingOperator index)

/-- The end of a group that reaches from `start` to `stop`. -/
def finish (acc : Accumulator α) (start stop : Nat) : Except ParseError (Expr α) :=
  if acc.negations > 0 || acc.pending?.isSome then .error (.missingOperand stop)
  else
    match acc.left? with
    | some e => .ok e
    | none => .error (.emptyGroup start)

end Accumulator

namespace Formula

open Nesting (byteLength)

variable {α : Type} [Numeral α]

mutual

/-- The expression of a group that is `depth` groups deep and starts at byte `start`. -/
def group (limit depth start : Nat) (cs : List Char) : Except ParseError (Expr α) :=
  if limit < depth then .error (.nestingTooDeep limit)
  else operands limit depth start {} start cs
termination_by (cs.length, 1)

/-- The rest of a group, from byte `index` on. -/
def operands (limit depth start : Nat) (acc : Accumulator α) (index : Nat) (cs : List Char) :
    Except ParseError (Expr α) :=
  match cs with
  | [] => acc.finish start index
  | c :: rest =>
    if Text.isBlank c then operands limit depth start acc (index + c.utf8Size) rest
    else
      match Operator.ofSymbol? c with
      | some op => do
        let acc ← acc.operator op index
        operands limit depth start acc (index + 1) rest
      | none =>
        if c = '(' then
          match h : Nesting.splitClosing? 0 rest with
          | none => .error (.unbalancedParenthesis index)
          | some (inside, after) => do
            have := Nesting.length_of_splitClosing? h
            let e ← group limit (depth + 1) (index + 1) inside
            let acc ← acc.operand e index
            operands limit depth start acc (index + byteLength inside + 2) after
        else if c = ')' then .error (.unbalancedParenthesis index)
        else if c.isAlpha then
          match h : Builtin.called? (c :: rest) with
          | none => do
            let acc ← acc.operand (.param (String.singleton c)) index
            operands limit depth start acc (index + 1) rest
          | some (f, afterName) =>
            let parenthesis :=
              index + byteLength f.letters + byteLength (afterName.takeWhile Text.isBlank)
            match h' : Nesting.splitClosing? 0 ((Text.skipBlanks afterName).drop 1) with
            | none => .error (.unbalancedParenthesis parenthesis)
            | some (inside, after) => do
              have : inside.length + after.length + 1 < rest.length + 1 := by
                have := Nesting.length_of_splitClosing? h'
                have := Builtin.length_of_called? h
                have := Text.length_skipBlanks_le afterName
                simp only [List.length_drop, List.length_cons] at *
                omega
              have := Nesting.extent_spans inside
              let es ← arguments limit (depth + 1) (parenthesis + 1) (Nesting.spans inside)
              match Expr.accepted? f es with
              | none => .error (.wrongArity f es.length index)
              | some e =>
                let acc ← acc.operand e index
                operands limit depth start acc (parenthesis + byteLength inside + 2) after
        else if c.isDigit || c = '.' then
          match h : Literal.literal? (c :: rest) with
          | none => .error (.unexpectedCharacter c index)
          | some (text, after) =>
            have := Literal.length_of_literal? h
            match Literal.value? text with
            | none => .error (.invalidNumber (String.ofList text) index)
            | some value => do
              let acc ← acc.operand (.const value) index
              operands limit depth start acc (index + byteLength text) after
        else .error (.unexpectedCharacter c index)
termination_by (cs.length, 0)

/-- The expressions of the arguments of a call, of which the first starts at byte `start`. -/
def arguments (limit depth start : Nat) (spans : List (List Char)) :
    Except ParseError (List (Expr α)) :=
  match spans with
  | [] => .ok []
  | span :: others => do
    let e ← group limit depth start span
    let es ← arguments limit depth (start + byteLength span + 1) others
    return e :: es
termination_by (Nesting.extent spans, 0)

end

/-- The expression that a text stands for, in which groups are nested no deeper than `maxDepth`. -/
def parseChars (maxDepth : Nat) (cs : List Char) : Except ParseError (Expr α) :=
  group maxDepth 0 0 cs

/-- The expression that a text with all its parentheses stands for. -/
def parse (maxDepth : Nat) (text : String) : Except ParseError (Expr α) :=
  parseChars maxDepth text.toList

end Formula

end SymbolicCalculus
