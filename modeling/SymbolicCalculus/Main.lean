import SymbolicCalculus.Binary64.Text
import SymbolicCalculus.Console

/-!
# The command line

The console on the standard streams, in double arithmetic.
-/

namespace SymbolicCalculus

/-- Writes to the stream that an output belongs on. -/
def Output.write : Output → IO Unit
  | .printed text => IO.println text
  | .reported text => IO.eprintln text

/-- Answers the lines of the standard input until it ends. -/
partial def Console.interact (console : Console Binary64) : IO Unit := do
  let line ← (← IO.getStdin).getLine
  unless line.isEmpty do
    let mut current := console
    for text in Text.lines line do
      let (output?, next) := current.step {} text
      current := next
      for output in output? do
        output.write
    Console.interact current

end SymbolicCalculus

def main : IO Unit := do
  IO.println SymbolicCalculus.Console.greeting
  SymbolicCalculus.Console.interact {}
