import SymbolicCalculus.Formula.Literal

/-!
# Nesting

Where the text between two parentheses ends, and where the arguments of a call do. The text is cut
without a loss: `eq_of_splitClosing?` and `extent_spans`.
-/

namespace SymbolicCalculus.Nesting

/-- How many bytes a text takes. -/
def byteLength : List Char → Nat
  | [] => 0
  | c :: cs => c.utf8Size + byteLength cs

/-- How many parentheses are open after a character. -/
def depthAfter (depth : Nat) (c : Char) : Nat :=
  if c = '(' then depth + 1 else if c = ')' then depth - 1 else depth

/-- The text before the parenthesis that closes a group in which `depth` others are open, and the
text after it. -/
def splitClosing? (depth : Nat) : List Char → Option (List Char × List Char)
  | [] => none
  | c :: cs =>
    if c = ')' ∧ depth = 0 then some ([], cs)
    else (splitClosing? (depthAfter depth c) cs).map fun (inside, after) => (c :: inside, after)

/-- The first argument of a call and the others. A comma separates two arguments when no
parenthesis is open, unless exactly three digits follow it. -/
def splitArguments (depth : Nat) : List Char → List Char × List (List Char)
  | [] => ([], [])
  | c :: cs =>
    if c = ',' ∧ depth = 0 ∧ ¬ Literal.isGroup cs then
      let (next, others) := splitArguments 0 cs
      ([], next :: others)
    else
      let (first, others) := splitArguments (depthAfter depth c) cs
      (c :: first, others)

theorem eq_of_splitClosing? {depth : Nat} {cs inside after : List Char}
    (h : splitClosing? depth cs = some (inside, after)) : cs = inside ++ ')' :: after := by
  induction cs generalizing depth inside with
  | nil => contradiction
  | cons c cs ih =>
    unfold splitClosing? at h
    split at h
    · next hc => simp_all
    · obtain ⟨⟨i, a⟩, hrec, heq⟩ := Option.map_eq_some_iff.mp h
      obtain ⟨rfl, rfl⟩ : c :: i = inside ∧ a = after := by simpa using heq
      rw [ih hrec, List.cons_append]

theorem length_of_splitClosing? {depth : Nat} {cs inside after : List Char}
    (h : splitClosing? depth cs = some (inside, after)) :
    inside.length + after.length + 1 = cs.length := by
  rw [eq_of_splitClosing? h, List.length_append, List.length_cons, Nat.add_assoc]

/-- How many characters some arguments have, a separator after each counted. -/
def extent : List (List Char) → Nat
  | [] => 0
  | a :: others => a.length + 1 + extent others

@[simp] theorem extent_nil : extent [] = 0 := rfl

@[simp] theorem extent_cons (a : List Char) (others : List (List Char)) :
    extent (a :: others) = a.length + 1 + extent others := rfl

theorem extent_splitArguments (depth : Nat) (cs : List Char) :
    extent ((splitArguments depth cs).1 :: (splitArguments depth cs).2) = cs.length + 1 := by
  induction cs generalizing depth with
  | nil => simp [splitArguments]
  | cons c cs ih =>
    unfold splitArguments
    split
    · have := ih 0
      simp only [extent_cons, List.length_nil, List.length_cons] at this ⊢
      omega
    · have := ih (depthAfter depth c)
      simp only [extent_cons, List.length_cons] at this ⊢
      omega

/-- The arguments of a call, given the text between its parentheses. -/
def spans (inside : List Char) : List (List Char) :=
  (splitArguments 0 inside).1 :: (splitArguments 0 inside).2

theorem extent_spans (inside : List Char) : extent (spans inside) = inside.length + 1 :=
  extent_splitArguments 0 inside

end SymbolicCalculus.Nesting
