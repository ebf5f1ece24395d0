/-!
# Lines

A text as its lines. A line ends before a line feed, or before the carriage return that comes right
before it; what follows the last line feed is a line unless it is empty.
-/

namespace SymbolicCalculus.Text

/-- A line without the carriage return that its end was written with. -/
def chompReturn (line : List Char) : List Char :=
  if line.getLast? = some '\r' then line.dropLast else line

/-- The lines of a text, where `line` holds what was read of the current one, last character
first. -/
def linesFrom (line : List Char) : List Char → List (List Char)
  | [] => if line.isEmpty then [] else [line.reverse]
  | '\n' :: rest => chompReturn line.reverse :: linesFrom [] rest
  | c :: rest => linesFrom (c :: line) rest

/-- The lines of a text. -/
def lines (text : String) : List String :=
  (linesFrom [] text.toList).map String.ofList

end SymbolicCalculus.Text
