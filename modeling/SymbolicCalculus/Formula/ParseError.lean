import SymbolicCalculus.Builtin
import SymbolicCalculus.Text.Quoted

/-!
# Why a text cannot be parsed

Positions are byte offsets into the text that the parser was given.
-/

namespace SymbolicCalculus

/-- What is wrong with a text, and where. -/
inductive ParseError where
  | unbalancedParenthesis (index : Nat)
  | unexpectedCharacter (character : Char) (index : Nat)
  | emptyGroup (index : Nat)
  | missingOperand (index : Nat)
  | missingOperator (index : Nat)
  | invalidNumber (text : String) (index : Nat)
  | wrongArity (f : Builtin) (found index : Nat)
  | nestingTooDeep (limit : Nat)
  deriving DecidableEq

namespace ParseError

def message : ParseError → String
  | unbalancedParenthesis index => s!"the parenthesis at {index} is never matched"
  | unexpectedCharacter character index =>
    let shown := Text.quoted character
    s!"unexpected character, {shown}, at {index}"
  | emptyGroup index => s!"the group starting at {index} is empty"
  | missingOperand index => s!"expected an operand at {index}"
  | missingOperator index => s!"expected an operator at {index}"
  | invalidNumber text index => s!"\"{text}\" at {index} isn't a valid number"
  | wrongArity f found index =>
    let name := f.name
    s!"{name} doesn't accept {found} argument(s) (at {index})"
  | nestingTooDeep limit => s!"the expression is nested more than {limit} levels deep"

end ParseError

end SymbolicCalculus
