import SymbolicCalculus.Proofs.TermReading

/-!
# The grammar of texts with all their parentheses

Which texts the parser is for, and what they stand for, said without the parser:
`Formula.Derives`. There is no precedence in it: the operators of a group are folded from the left.
A derived text is balanced (`Derives.balanced`), and the arguments that a call was derived from are
those that its text is split into (`Separated.spans_eq`).
-/

namespace SymbolicCalculus

open Literal (IsLiteral StartsWithoutDigit)
open Nesting (Balanced)

namespace Nesting

/-- The text between the parentheses of a call, and its arguments. A comma stands between every two
arguments, and it is not followed by exactly three digits. -/
inductive Separated : List Char → List (List Char) → Prop
  | last (cs : List Char) : Separated cs [cs]
  | comma (cs : List Char) {ds : List Char} {spans : List (List Char)} :
    Literal.isGroup ds = false → Separated ds spans → Separated (cs ++ ',' :: ds) (cs :: spans)

end Nesting

namespace Formula

open Nesting (Separated)

variable {α : Type} [Numeral α]

/-- The two kinds of pieces that a text with all its parentheses is made of. -/
inductive Piece where
  | group
  | operand

/-- The text is a piece of some kind that stands for an expression, and groups and arguments within
it are nested at most so many deep.

    group    := operand (OPERATOR operand)*
    operand  := "-" operand | "+" operand | "(" group ")"
              | FUNCTION "(" group ("," group)* ")" | NUMBER | LETTER

Blanks may stand before an operand, after a group, and between the name of a function and its
parenthesis, which is between any two words. Each operator of a group joins an operand to all that
stands to its left. Each minus sign before an operand is one negation, and a plus sign is dropped. A
function is called with as many arguments as it accepts. A number stands for its value, and each has
one (`Literal.IsLiteral.exists_value`). -/
inductive Derives : Piece → Nat → List Char → Expr α → Prop
  | operand {n : Nat} {cs : List Char} {e : Expr α} :
    Derives .operand n cs e → Derives .group n cs e
  | operator {n : Nat} {cs ds : List Char} {a b : Expr α} (op : Operator) :
    Derives .group n cs a → Derives .operand n ds b →
    Derives .group n (cs ++ op.symbol :: ds) (.binary op a b)
  | blankAfter {n : Nat} {c : Char} {cs : List Char} {e : Expr α} :
    Text.isBlank c = true → Derives .group n cs e → Derives .group n (cs ++ [c]) e
  | blankBefore {n : Nat} {c : Char} {cs : List Char} {e : Expr α} :
    Text.isBlank c = true → Derives .operand n cs e → Derives .operand n (c :: cs) e
  | minus {n : Nat} {cs : List Char} {e : Expr α} :
    Derives .operand n cs e → Derives .operand n ('-' :: cs) (.neg e)
  | plus {n : Nat} {cs : List Char} {e : Expr α} :
    Derives .operand n cs e → Derives .operand n ('+' :: cs) e
  | parentheses {n : Nat} {cs : List Char} {e : Expr α} :
    Derives .group n cs e → Derives .operand (n + 1) ('(' :: cs ++ [')']) e
  | call {n : Nat} {f : Builtin} {blanks inside : List Char}
    {arguments : List (List Char × Expr α)} {e : Expr α} :
    blanks.all Text.isBlank → (∀ x ∈ arguments, Derives .group n x.1 x.2) →
    Separated inside (arguments.map Prod.fst) →
    Expr.accepted? f (arguments.map Prod.snd) = some e →
    Derives .operand (n + 1) (f.letters ++ blanks ++ ('(' :: inside ++ [')'])) e
  | number {n : Nat} {digits : List Char} {v : α} :
    IsLiteral digits → Literal.value? digits = some v → Derives .operand n digits (.const v)
  | letter {n : Nat} {c : Char} :
    c.isAlpha = true → Derives .operand n [c] (.param (String.singleton c))

end Formula

namespace Nesting

/-! ## Arguments -/

/-- A character in front of the first argument. -/
theorem Separated.cons {inside span : List Char} {spans : List (List Char)}
    (h : Separated inside (span :: spans)) (c : Char) :
    Separated (c :: inside) ((c :: span) :: spans) := by
  cases h with
  | last => exact .last (c :: inside)
  | comma _ hgroup hspans => exact .comma (c :: span) hgroup hspans

/-- Every text between parentheses is made of the arguments that it is split into. -/
theorem separated_splitArguments (depth : Nat) (cs : List Char) :
    Separated cs ((splitArguments depth cs).1 :: (splitArguments depth cs).2) := by
  induction cs generalizing depth with
  | nil => exact .last []
  | cons c cs ih =>
    rw [splitArguments]
    split
    · next hc =>
      obtain ⟨rfl, -, hgroup⟩ := hc
      exact .comma [] (by simpa using hgroup) (ih 0)
    · exact (ih (depthAfter depth c)).cons c

/-- Arguments that are balanced make up a balanced text. -/
theorem Separated.balanced {inside : List Char} {spans : List (List Char)}
    (h : Separated inside spans) (hspans : ∀ span ∈ spans, Balanced span) : Balanced inside := by
  induction h with
  | last cs => exact hspans cs (List.mem_singleton_self cs)
  | comma cs _ _ ih =>
    obtain ⟨hcs, hds⟩ := List.forall_mem_cons.mp hspans
    exact hcs.append (.cons (by decide) (by decide) (ih hds))

/-- The text is passed over as a part of one argument, up to whatever cannot extend a number. -/
def IsPassedOver (cs : List Char) : Prop :=
  ∀ rest, StartsWithoutDigit rest →
    splitArguments 0 (cs ++ rest) =
      (cs ++ (splitArguments 0 rest).1, (splitArguments 0 rest).2)

theorem IsPassedOver.cons {c : Char} {cs : List Char} (hc : c ≠ '(' ∧ c ≠ ')' ∧ c ≠ ',')
    (h : IsPassedOver cs) : IsPassedOver (c :: cs) := by
  intro rest hrest
  rw [List.cons_append, splitArguments_cons (.inl hc.2.2), depthAfter, if_neg hc.1, if_neg hc.2.1,
    h rest hrest]
  rfl

/-- A text after another one, where a character that is not a digit stands between them. -/
theorem IsPassedOver.append {c : Char} {cs ds : List Char} (hcs : IsPassedOver cs)
    (hc : c.isDigit = false) (hds : IsPassedOver (c :: ds)) : IsPassedOver (cs ++ c :: ds) := by
  intro rest hrest
  have hnext : StartsWithoutDigit (c :: ds ++ rest) := Literal.startsWithoutDigit_cons hc
  rw [List.append_assoc, hcs _ hnext, hds rest hrest]
  simp only [List.append_assoc]

/-- The arguments that a text is made of are those that it is split into. -/
theorem Separated.spans_eq {inside : List Char} {spans : List (List Char)}
    (h : Separated inside spans) (hspans : ∀ span ∈ spans, IsPassedOver span) :
    Nesting.spans inside = spans := by
  induction h with
  | last cs =>
    have hcs := hspans cs (List.mem_singleton_self cs) [] Literal.EndsNumber.nil.digit
    rw [List.append_nil, splitArguments, List.append_nil] at hcs
    rw [Nesting.spans, hcs]
  | @comma cs ds spans hgroup _ ih =>
    obtain ⟨hcs, hds⟩ := List.forall_mem_cons.mp hspans
    have hcomma : splitArguments 0 (',' :: ds) =
        ([], (splitArguments 0 ds).1 :: (splitArguments 0 ds).2) := by
      rw [splitArguments, if_pos ⟨rfl, rfl, by simp [hgroup]⟩]
    have hspan := hcs (',' :: ds) (Literal.startsWithoutDigit_cons (by decide))
    rw [hcomma, List.append_nil] at hspan
    rw [Nesting.spans, hspan, ← ih hds, Nesting.spans]

end Nesting

namespace Formula

variable {α : Type} [Numeral α] {piece : Piece} {n : Nat} {cs : List Char} {e : Expr α}

/-! ## Derived texts -/

/-- The name of a function and the blanks after it. -/
theorem plain_name (f : Builtin) {blanks : List Char} (h : blanks.all Text.isBlank) :
    ∀ c ∈ f.letters ++ blanks, c ≠ '(' ∧ c ≠ ')' ∧ c ≠ ',' :=
  List.forall_mem_append.mpr ⟨Term.plain_letters f, fun c hc =>
    Text.plain_of_isBlank (List.all_eq_true.mp h c hc)⟩

theorem balanced_name (f : Builtin) {blanks : List Char} (h : blanks.all Text.isBlank) :
    Balanced (f.letters ++ blanks) :=
  .of_plain fun c hc => (plain_name f h c hc).imp_right And.left

theorem Derives.balanced (h : Derives piece n cs e) : Balanced cs := by
  induction h with
  | operand _ ih => exact ih
  | operator op _ _ ihcs ihds =>
    exact ihcs.append (.cons op.plain_symbol.1 op.plain_symbol.2.1 ihds)
  | blankAfter hc _ ih =>
    have hplain := Text.plain_of_isBlank hc
    exact ih.append (.cons hplain.1 hplain.2.1 .nil)
  | blankBefore hc _ ih =>
    have hplain := Text.plain_of_isBlank hc
    exact .cons hplain.1 hplain.2.1 ih
  | minus _ ih => exact .cons (by decide) (by decide) ih
  | plus _ ih => exact .cons (by decide) (by decide) ih
  | parentheses _ ih => exact ih.enclosed
  | @call _ f blanks inside arguments _ hblanks _ hseparated _ ih =>
    have hinside : Balanced inside := hseparated.balanced (List.forall_mem_map.mpr ih)
    exact (balanced_name f hblanks).append hinside.enclosed
  | number hdigits _ =>
    refine .of_plain fun c hc => ?_
    rcases hdigits.mem hc with hd | rfl | rfl
    · exact (Nesting.plain_of_isDigit hd).imp_right And.left
    · decide
    · decide
  | letter hc =>
    have hne := IsWordChar.ne (.inl hc)
    exact .cons hne.1 hne.2.1 .nil

theorem Derives.isPassedOver (h : Derives piece n cs e) : Nesting.IsPassedOver cs := by
  induction h with
  | operand _ ih => exact ih
  | operator op _ _ ihcs ihds =>
    exact ihcs.append (by cases op <;> rfl) (ihds.cons op.plain_symbol)
  | blankAfter hc _ ih =>
    have hnil : Nesting.IsPassedOver [] := fun _ _ => rfl
    exact ih.append (Text.isDigit_of_isBlank hc) (hnil.cons (Text.plain_of_isBlank hc))
  | blankBefore hc _ ih => exact ih.cons (Text.plain_of_isBlank hc)
  | minus _ ih => exact ih.cons (by decide)
  | plus _ ih => exact ih.cons (by decide)
  | parentheses h _ =>
    exact fun rest _ => h.balanced.splitArguments_zero [] (List.forall_mem_nil _) rest
  | @call _ f blanks inside arguments _ hblanks harguments hseparated _ _ =>
    intro rest _
    have hinside : Balanced inside :=
      hseparated.balanced (List.forall_mem_map.mpr fun x hx => (harguments x hx).balanced)
    exact hinside.splitArguments_zero (f.letters ++ blanks) (plain_name f hblanks) rest
  | number hdigits _ => exact fun rest hrest => Nesting.splitArguments_literal hdigits hrest
  | @letter _ c hc =>
    intro rest _
    exact Nesting.splitArguments_plain (by simpa using IsWordChar.ne (.inl hc)) 0 rest

end Formula

end SymbolicCalculus
