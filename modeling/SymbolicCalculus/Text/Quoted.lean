import SymbolicCalculus.Text.Hidden

/-!
# A character in quotes

How a message shows one character: between single quotes, with an escape for the quote, the
backslash and whatever has no visible form.
-/

namespace SymbolicCalculus.Text

/-- The digits of a number in base sixteen, in lower case. -/
def hexadecimal (n : Nat) : List Char :=
  Nat.toDigits 16 n

/-- The character itself or the escape that stands for it. -/
def escaped (c : Char) : List Char :=
  match c with
  | '\x00' => ['\\', '0']
  | '\t' => ['\\', 't']
  | '\n' => ['\\', 'n']
  | '\r' => ['\\', 'r']
  | '\'' => ['\\', '\'']
  | '\\' => ['\\', '\\']
  | c => if isHidden c then ['\\', 'u', '\x7b'] ++ hexadecimal c.toNat ++ ['\x7d'] else [c]

/-- The character between single quotes. -/
def quoted (c : Char) : String :=
  String.ofList ('\'' :: escaped c ++ ['\''])

end SymbolicCalculus.Text
