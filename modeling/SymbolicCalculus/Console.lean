import SymbolicCalculus.Derivation
import SymbolicCalculus.Text.Line

/-!
# The console

A formula per line. The console differentiates it, holds the derivation and prints it; a blank line
differentiates the derivative that is held once more. A line that fails is reported and changes
nothing.
-/

namespace SymbolicCalculus

/-- What the console writes. -/
inductive Output where
  | printed (text : String)
  | reported (text : String)

/-- What the console remembers from line to line. -/
structure Console (α : Type) where
  held? : Option (Derivation α) := none

namespace Console

variable {α : Type} [Scalar α] [Numeral α]

/-- What the console prints first. -/
def greeting : String :=
  "Enter f(x), or an empty line to differentiate again"

/-- The derivation that a line asks for, if it asks for one. -/
def request? (limits : Limits) (console : Console α) (line : String) :
    Option (Except (Failure α) (Derivation α)) :=
  match Text.trimmed line.toList, console.held? with
  | [], none => none
  | [], some d => some (d.next limits).result
  | text, _ => some (Derivation.ofFormula limits (String.ofList text)).result

/-- What the console writes for a line, and the console after it. -/
def step (limits : Limits) (console : Console α) (line : String) : Option Output × Console α :=
  match console.request? limits line with
  | none => (none, console)
  | some (.ok d) => (some (.printed d.text), { held? := some d })
  | some (.error e) =>
    let message := e.message
    (some (.reported s!"Unable to differentiate \"{line}\": {message}"), console)

/-- What the console writes for some lines. -/
def run (limits : Limits) (console : Console α) : List String → List Output
  | [] => []
  | line :: rest =>
    let (output?, console) := console.step limits line
    output?.toList ++ run limits console rest

/-- Everything that the console writes for an input. -/
def transcript (limits : Limits) (input : String) : List Output :=
  .printed greeting :: run limits ({} : Console α) (Text.lines input)

end Console

namespace Output

/-- The lines that were printed, each with its end. -/
def printedText (outputs : List Output) : String :=
  String.join (outputs.map fun
    | printed text => text ++ "\n"
    | reported _ => "")

/-- The lines that were reported, each with its end. -/
def reportedText (outputs : List Output) : String :=
  String.join (outputs.map fun
    | printed _ => ""
    | reported text => text ++ "\n")

end Output

end SymbolicCalculus
