import SymbolicCalculus.Scalar

/-!
# Number literals

A number starts with digits. One to three of them may be followed by groups of a comma and exactly
three digits, and then a point and more digits; the digits on one side of the point may be missing.
What is read and what is left make up the text: `append_of_literal?`.
-/

namespace SymbolicCalculus.Literal

/-- Are there exactly three digits at the start? A comma before them belongs to a number. -/
def isGroup (cs : List Char) : Bool :=
  (cs.takeWhile Char.isDigit).length == 3

/-- The groups of thousands at the start, and the rest. -/
def groups : List Char → List Char × List Char
  | ',' :: a :: b :: c :: rest =>
    if isGroup (a :: b :: c :: rest) then
      let (more, rest') := groups rest
      (',' :: a :: b :: c :: more, rest')
    else ([], ',' :: a :: b :: c :: rest)
  | cs => ([], cs)

/-- The point at the start with its digits, and the rest. -/
def fraction : List Char → List Char × List Char
  | '.' :: rest => ('.' :: rest.takeWhile Char.isDigit, rest.dropWhile Char.isDigit)
  | cs => ([], cs)

/-- The digits at the start with their groups, and the rest. -/
def integral (cs : List Char) : List Char × List Char :=
  let digits := cs.takeWhile Char.isDigit
  let rest := cs.dropWhile Char.isDigit
  if 1 ≤ digits.length ∧ digits.length ≤ 3 then
    let (more, rest') := groups rest
    (digits ++ more, rest')
  else (digits, rest)

/-- The number at the start, and the rest; a point without a digit is none. -/
def literal? (cs : List Char) : Option (List Char × List Char) :=
  let (whole, rest) := integral cs
  let (places, rest') := fraction rest
  if whole.isEmpty && places.length ≤ 1 then none else some (whole ++ places, rest')

/-- The value of digits with at most one point among them and at least one digit, where commas do
not count. -/
def value? {α : Type} [Numeral α] (cs : List Char) : Option α :=
  let digits := cs.filter (· != ',')
  let whole := digits.takeWhile Char.isDigit
  match digits.dropWhile Char.isDigit with
  | [] => if whole.isEmpty then none else some (Numeral.ofDecimal (Nat.ofDigitChars 10 whole 0) 0)
  | '.' :: places =>
    if places.all Char.isDigit && !(whole.isEmpty && places.isEmpty) then
      some (Numeral.ofDecimal (Nat.ofDigitChars 10 (whole ++ places) 0) places.length)
    else none
  | _ => none

/-! ## Nothing is lost -/

theorem append_groups (cs : List Char) : (groups cs).1 ++ (groups cs).2 = cs := by
  fun_induction groups cs with
  | case1 a b c rest h more rest' hr ih => simpa [hr] using ih
  | case2 => rfl
  | case3 => rfl

theorem append_fraction (cs : List Char) : (fraction cs).1 ++ (fraction cs).2 = cs := by
  unfold fraction
  split
  · simp
  · rfl

theorem append_integral (cs : List Char) : (integral cs).1 ++ (integral cs).2 = cs := by
  unfold integral
  dsimp only
  split
  · rw [List.append_assoc, append_groups, List.takeWhile_append_dropWhile]
  · exact List.takeWhile_append_dropWhile

theorem append_of_literal? {cs text rest : List Char} (h : literal? cs = some (text, rest)) :
    text ++ rest = cs := by
  unfold literal? at h
  dsimp only at h
  split at h
  · contradiction
  · obtain ⟨rfl, rfl⟩ : _ ∧ _ := by simpa using h
    rw [List.append_assoc, append_fraction, append_integral]

theorem ne_nil_of_literal? {cs text rest : List Char} (h : literal? cs = some (text, rest)) :
    text ≠ [] := by
  unfold literal? at h
  dsimp only at h
  split at h
  · contradiction
  · next hne =>
    obtain ⟨rfl, -⟩ : _ ∧ _ := by simpa using h
    intro hnil
    obtain ⟨hw, hp⟩ := List.append_eq_nil_iff.mp hnil
    simp [hw, hp] at hne

/-- What is left is shorter. -/
theorem length_of_literal? {cs text rest : List Char} (h : literal? cs = some (text, rest)) :
    rest.length < cs.length := by
  have := List.length_pos_iff.mpr (ne_nil_of_literal? h)
  rw [← append_of_literal? h, List.length_append]
  omega

end SymbolicCalculus.Literal
