/-!
# Blank space

The characters that separate words, which are those of the property White_Space, and what is left
of a text without the blanks at its ends. `isBlank_of_isWhitespace` says that every ASCII blank is
one of them.
-/

namespace SymbolicCalculus.Text

/-- White_Space: the ASCII blanks and controls, NEL, the no-break space, and the spaces and
separators of the general punctuation and CJK blocks. -/
def isBlank (c : Char) : Bool :=
  let n := c.toNat
  (0x9 ≤ n && n ≤ 0xD) || n == 0x20 || n == 0x85 || n == 0xA0 || n == 0x1680 ||
    (0x2000 ≤ n && n ≤ 0x200A) || n == 0x2028 || n == 0x2029 || n == 0x202F || n == 0x205F ||
    n == 0x3000

theorem isBlank_of_isWhitespace {c : Char} (h : c.isWhitespace = true) : isBlank c = true := by
  simp only [Char.isWhitespace, Bool.or_eq_true, decide_eq_true_eq] at h
  rcases h with ((rfl | rfl) | rfl) | rfl <;> decide

/-- What follows the blanks at the start. -/
def skipBlanks (cs : List Char) : List Char :=
  cs.dropWhile isBlank

theorem length_skipBlanks_le (cs : List Char) : (skipBlanks cs).length ≤ cs.length :=
  (List.dropWhile_suffix _).length_le

/-- What stands between the blanks at the two ends. -/
def trimmed (cs : List Char) : List Char :=
  (skipBlanks (skipBlanks cs).reverse).reverse

end SymbolicCalculus.Text
