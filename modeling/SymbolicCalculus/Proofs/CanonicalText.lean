import SymbolicCalculus.Expr.Text
import SymbolicCalculus.Proofs.Grammar
import SymbolicCalculus.Proofs.Lexing

/-!
# The canonical text under the grammar

The canonical text of an expression is a formula of the grammar, and stands for the expression with
the signs of its constants taken apart from them: `Expr.isWritten_chars`. The printer agrees with
the grammar because an operand is either between parentheses or a primary phrase by itself.
-/

namespace SymbolicCalculus

open Literal (IsLiteral EndsNumber)

namespace Expr

variable {α : Type}

/-! ## Expressions that a text can stand for -/

/-- Every parameter is a single letter. -/
def HasLetters : Expr α → Prop
  | param p => ∃ c : Char, c.isAlpha = true ∧ p = String.singleton c
  | const _ | call₀ _ => True
  | binary _ a b => a.HasLetters ∧ b.HasLetters
  | neg a => a.HasLetters
  | call₁ _ x => x.HasLetters
  | call₂ _ x y => x.HasLetters ∧ y.HasLetters

/-- Every call has as many arguments as its function accepts. -/
def CallsAccepted : Expr α → Prop
  | param _ | const _ => True
  | binary _ a b => a.CallsAccepted ∧ b.CallsAccepted
  | neg a => a.CallsAccepted
  | call₀ f => f.accepts 0 = true
  | call₁ f x => f.accepts 1 = true ∧ x.CallsAccepted
  | call₂ f x y => f.accepts 2 = true ∧ x.CallsAccepted ∧ y.CallsAccepted

/-- The constants, from the left. -/
def constants : Expr α → List α
  | param _ | call₀ _ => []
  | const k => [k]
  | binary _ a b => a.constants ++ b.constants
  | neg a => a.constants
  | call₁ _ x => x.constants
  | call₂ _ x y => x.constants ++ y.constants

/-- The expression with the negation of its magnitude for every constant that is written with a
sign. -/
def withoutSigns [Scalar α] [Numeral α] : Expr α → Expr α
  | param p => param p
  | const k => if Numeral.isNegative k then neg (const (Scalar.magnitude k)) else const k
  | binary op a b => binary op a.withoutSigns b.withoutSigns
  | neg a => neg a.withoutSigns
  | call₀ f => call₀ f
  | call₁ f x => call₁ f x.withoutSigns
  | call₂ f x y => call₂ f x.withoutSigns y.withoutSigns

theorem withoutSigns_eq_self [Scalar α] [Numeral α] {e : Expr α}
    (h : ∀ k ∈ e.constants, Numeral.isNegative k = false) : e.withoutSigns = e := by
  induction e with
  | param p => rfl
  | const k => rw [withoutSigns, if_neg (by simp [h k (List.mem_singleton_self k)])]
  | binary op a b iha ihb =>
    obtain ⟨ha, hb⟩ := List.forall_mem_append.mp h
    rw [withoutSigns, iha ha, ihb hb]
  | neg a ih => rw [withoutSigns, ih h]
  | call₀ f => rfl
  | call₁ f x ih => rw [withoutSigns, ih h]
  | call₂ f x y ihx ihy =>
    obtain ⟨hx, hy⟩ := List.forall_mem_append.mp h
    rw [withoutSigns, ihx hx, ihy hy]

end Expr

namespace Numeral

variable {α : Type} [Numeral α]

/-- The number is written as digits, possibly with a point and digits after them, and its text reads
back as the number. -/
structure ReadsBack (k : α) : Prop where
  decimal : ∃ whole places : List Char, whole ≠ [] ∧ whole.all Char.isDigit ∧
    places.all Char.isDigit ∧ (text k = whole ∨ text k = whole ++ '.' :: places)
  value : Literal.value? (text k) = some k

theorem ReadsBack.isLiteral {k : α} (h : ReadsBack k) : IsLiteral (text k) := by
  obtain ⟨whole, places, hne, hwhole, hplaces, htext | htext⟩ := h.decimal
  · rw [htext]
    exact Literal.isLiteral_of_digits hne hwhole
  · rw [htext]
    exact Literal.isLiteral_of_decimal hne hwhole hplaces

/-- The number is written as a number that reads back, with a minus sign before it if it is
negative. -/
def IsWritten [Scalar α] (k : α) : Prop :=
  if isNegative k then text k = '-' :: text (Scalar.magnitude k) ∧ ReadsBack (Scalar.magnitude k)
  else ReadsBack k

end Numeral

namespace Formula

variable {α : Type} [Numeral α]

/-! ## Written phrases -/

/-- What may follow a word without becoming part of it. -/
structure EndsWord (rest : List Char) : Prop where
  number : EndsNumber rest
  letter : ∀ c ∈ rest.head?, c.isAlpha = false

theorem endsWord_nil : EndsWord [] :=
  ⟨.nil, nofun⟩

theorem endsWord_cons {c : Char} (hword : ¬ IsWordChar c) (hcomma : c ≠ ',') (rest : List Char) :
    EndsWord (c :: rest) := by
  have hdigit : c.isDigit = false := by simpa using fun h => hword (.inr (.inl h))
  have hpoint : c ≠ '.' := fun h => hword (.inr (.inr h))
  have halpha : c.isAlpha = false := by simpa using fun h => hword (.inl h)
  refine ⟨⟨Literal.startsWithoutDigit_cons hdigit, Literal.startsWithoutGroup_cons hcomma,
    by simpa using hpoint⟩, ?_⟩
  rintro d ⟨rfl⟩
  exact halpha

theorem endsWord_closeParen (rest : List Char) : EndsWord (')' :: rest) :=
  endsWord_cons (by rintro (h | h | h) <;> contradiction) (by decide) rest

/-- A comma between two arguments. -/
theorem endsWord_comma {rest : List Char} (h : Literal.isGroup rest = false) :
    EndsWord (',' :: rest) := by
  refine ⟨⟨Literal.startsWithoutDigit_cons (by decide), ?_, by simp⟩, ?_⟩
  · rintro rest' ⟨rfl, rfl⟩
    exact h
  · rintro c ⟨rfl⟩
    decide

theorem endsWord_blank {c : Char} (hc : Text.isBlank c = true) (rest : List Char) :
    EndsWord (c :: rest) :=
  endsWord_cons (fun hword => by simp [hword.isBlank] at hc) (Text.plain_of_isBlank hc).2.2 rest

theorem endsWord_symbol (op : Operator) (rest : List Char) : EndsWord (op.symbol :: rest) := by
  cases op <;> exact endsWord_cons (by rintro (h | h | h) <;> contradiction) (by decide) rest

theorem endsWord_spelling (op : Operator) (rest : List Char) :
    EndsWord (op.spelling ++ rest) := by
  cases op <;>
    exact endsWord_cons (by rintro (h | h | h) <;> contradiction) (by decide) _

/-- A text is cut into tokens that leave no product unsaid and are a phrase for the expression. -/
def IsWritten (cs : List Char) (phrase : Phrase) (e : Expr α) : Prop :=
  ∃ ts : List Token,
    (∀ rest, EndsWord rest → Token.ofChars (cs ++ rest) = ts ++ Token.ofChars rest) ∧
    ts.IsChain Token.IsSaid ∧ Reads phrase ts e

namespace IsWritten

theorem signed_of_primary {cs : List Char} {e : Expr α} (h : IsWritten cs .primary e) :
    IsWritten cs .signed e := by
  obtain ⟨ts, hlex, hsaid, hreads⟩ := h
  exact ⟨ts, hlex, hsaid, hreads.signed_of_primary⟩

theorem sum_of_signed {cs : List Char} {e : Expr α} (h : IsWritten cs .signed e) :
    IsWritten cs .sum e := by
  obtain ⟨ts, hlex, hsaid, hreads⟩ := h
  exact ⟨ts, hlex, hsaid, .sum_of_product (.product_of_signed hreads)⟩

theorem sum_of_primary {cs : List Char} {e : Expr α} (h : IsWritten cs .primary e) :
    IsWritten cs .sum e :=
  h.signed_of_primary.sum_of_signed

theorem number {text : List Char} {v : α} (h : IsLiteral text)
    (hv : Literal.value? text = some v) : IsWritten text .primary (.const v) := by
  refine ⟨[.number text], fun rest hrest => Token.ofChars_number h hrest.number,
    List.isChain_singleton _, .number ?_⟩
  rwa [Literal.value?_filter]

theorem letter {c : Char} (hc : c.isAlpha = true) :
    IsWritten [c] .primary (.param (String.singleton c) : Expr α) :=
  ⟨[.letter c], fun _ hrest => Token.ofChars_letter hc hrest.letter, List.isChain_singleton _,
    .letter⟩

theorem group {cs : List Char} {e : Expr α} (h : IsWritten cs .sum e) :
    IsWritten ('(' :: cs ++ [')']) .primary e := by
  obtain ⟨ts, hlex, hsaid, hreads⟩ := h
  refine ⟨.openParen :: ts ++ [.closeParen], fun rest hrest => ?_, ?_, .group hreads⟩
  · have heq : '(' :: cs ++ [')'] ++ rest = '(' :: (cs ++ ')' :: rest) := by simp
    rw [heq, Token.ofChars_openParen, hlex _ (endsWord_closeParen rest), Token.ofChars_closeParen]
    simp
  · exact Token.isChain_cons_of_endsOperand rfl
      (Token.isChain_append_of_startsOperand rfl hsaid (List.isChain_singleton _))

theorem blankBefore {c : Char} {cs : List Char} {phrase : Phrase} {e : Expr α}
    (hc : Text.isBlank c = true) (h : IsWritten cs phrase e) : IsWritten (c :: cs) phrase e := by
  obtain ⟨ts, hlex, hsaid, hreads⟩ := h
  refine ⟨ts, fun rest hrest => ?_, hsaid, hreads⟩
  rw [List.cons_append, Token.ofChars_blank hc, hlex rest hrest]

theorem call₁ {f : Builtin} {blanks cs : List Char} {x : Expr α} (hf : f.accepts 1 = true)
    (hblanks : blanks.all Text.isBlank) (h : IsWritten cs .sum x) :
    IsWritten (f.letters ++ blanks ++ ('(' :: cs ++ [')'])) .primary (.call₁ f x) := by
  obtain ⟨ts, hlex, hsaid, hreads⟩ := h
  refine ⟨.function f :: .openParen :: ts ++ [.closeParen], fun rest hrest => ?_, ?_,
    .call₁ hf hreads⟩
  · have heq : f.letters ++ blanks ++ ('(' :: cs ++ [')']) ++ rest =
        f.letters ++ (blanks ++ '(' :: (cs ++ ')' :: rest)) := by
      simp
    rw [heq, Token.ofChars_call f hblanks, hlex _ (endsWord_closeParen rest),
      Token.ofChars_closeParen]
    simp
  · exact Token.isChain_cons_of_endsOperand rfl (Token.isChain_cons_of_endsOperand rfl
      (Token.isChain_append_of_startsOperand rfl hsaid (List.isChain_singleton _)))

theorem call₂ {f : Builtin} {blanks cs ds : List Char} {x y : Expr α} (hf : f.accepts 2 = true)
    (hblanks : blanks.all Text.isBlank) (hgroup : Literal.isGroup ds = false)
    (hx : IsWritten cs .sum x) (hy : IsWritten ds .sum y) :
    IsWritten (f.letters ++ blanks ++ ('(' :: (cs ++ ',' :: ds) ++ [')'])) .primary
      (.call₂ f x y) := by
  obtain ⟨ts, hlexx, hsaidx, hreadsx⟩ := hx
  obtain ⟨us, hlexy, hsaidy, hreadsy⟩ := hy
  refine ⟨.function f :: .openParen :: ts ++ .comma :: us ++ [.closeParen], fun rest hrest => ?_,
    ?_, .call₂ hf hreadsx hreadsy⟩
  · have heq : f.letters ++ blanks ++ ('(' :: (cs ++ ',' :: ds) ++ [')']) ++ rest =
        f.letters ++ (blanks ++ '(' :: (cs ++ ',' :: (ds ++ ')' :: rest))) := by
      simp
    have hcomma : Literal.isGroup (ds ++ ')' :: rest) = false := by
      rw [Literal.isGroup_append_eq ds (Literal.startsWithoutDigit_cons (by decide)), hgroup]
    rw [heq, Token.ofChars_call f hblanks, hlexx _ (endsWord_comma hcomma), Token.ofChars_comma,
      hlexy _ (endsWord_closeParen rest), Token.ofChars_closeParen]
    simp
  · have hsecond : (us ++ [Token.closeParen]).IsChain Token.IsSaid :=
      Token.isChain_append_of_startsOperand rfl hsaidy (List.isChain_singleton _)
    have hargs : (ts ++ Token.comma :: (us ++ [Token.closeParen])).IsChain Token.IsSaid :=
      Token.isChain_append_of_startsOperand rfl hsaidx
        (Token.isChain_cons_of_endsOperand rfl hsecond)
    have := Token.isChain_cons_of_endsOperand (a := .function f) rfl
      (Token.isChain_cons_of_endsOperand (a := .openParen) rfl hargs)
    simpa using this

/-- A sign before an operand. -/
theorem sign {cs : List Char} {a b : Expr α} (op : Operator)
    (hop : ∀ ts, Reads .signed ts a → Reads .signed (.operator op :: ts) b)
    (h : IsWritten cs .signed a) : IsWritten (op.symbol :: cs) .signed b := by
  obtain ⟨ts, hlex, hsaid, hreads⟩ := h
  refine ⟨.operator op :: ts, fun rest hrest => ?_,
    Token.isChain_cons_of_endsOperand rfl hsaid, hop ts hreads⟩
  rw [List.cons_append, List.cons_append, ← hlex rest hrest, Token.ofChars_operator]

theorem minus {cs : List Char} {e : Expr α} (h : IsWritten cs .primary e) :
    IsWritten ('-' :: cs) .sum (.neg e) :=
  (h.signed_of_primary.sign .minus fun _ => .minus).sum_of_signed

theorem binary {op : Operator} {cs ds : List Char} {a b : Expr α} (ha : IsWritten cs .primary a)
    (hb : IsWritten ds .primary b) :
    IsWritten (cs ++ op.spelling ++ ds) .sum (.binary op a b) := by
  obtain ⟨ts, hlexa, hsaida, hreadsa⟩ := ha
  obtain ⟨us, hlexb, hsaidb, hreadsb⟩ := hb
  refine ⟨ts ++ .operator op :: us, fun rest hrest => ?_,
    Token.isChain_append_of_startsOperand rfl hsaida
      (Token.isChain_cons_of_endsOperand rfl hsaidb),
    hreadsa.binary op hreadsb⟩
  rw [List.append_assoc, List.append_assoc, hlexa _ (endsWord_spelling op _),
    Token.ofChars_spelling, hlexb rest hrest]
  simp

end IsWritten

end Formula

namespace Expr

open Formula (IsWritten)

variable {α : Type} [Numeral α]

/-! ## Written expressions -/

/-- The text of an operand is a primary phrase if the text by itself is a phrase of its kind. -/
theorem isWritten_enclosed {e e' : Expr α} {cs : List Char}
    (h : IsWritten cs (if e.isCompound then .sum else .primary) e') :
    IsWritten (e.enclosed cs) .primary e' ∧ IsWritten cs .sum e' := by
  unfold enclosed
  split at h
  · next hc =>
    rw [if_pos hc]
    exact ⟨h.group, h⟩
  · next hc =>
    rw [if_neg hc]
    exact ⟨h, h.sum_of_primary⟩

/-- **The canonical text is a formula** that stands for the expression with the signs taken apart
from its constants. -/
theorem isWritten_chars [Scalar α] {e : Expr α} (hletters : e.HasLetters) (hcalls : e.CallsAccepted)
    (hconstants : ∀ k ∈ e.constants, Numeral.IsWritten k) :
    IsWritten (e.enclosed e.chars) .primary e.withoutSigns ∧
      IsWritten e.chars .sum e.withoutSigns := by
  induction e with
  | param p =>
    obtain ⟨c, hc, rfl⟩ := hletters
    have hchars : (param (String.singleton c) : Expr α).chars = [c] := String.toList_singleton c
    rw [hchars]
    exact isWritten_enclosed (.letter hc)
  | const k =>
    have hk := hconstants k (List.mem_singleton_self k)
    refine isWritten_enclosed ?_
    rw [isCompound, withoutSigns]
    unfold Numeral.IsWritten at hk
    split at hk
    · next hneg =>
      rw [if_pos hneg, if_pos hneg, chars, hk.1]
      exact (IsWritten.number hk.2.isLiteral hk.2.value).minus
    · next hneg =>
      rw [if_neg hneg, if_neg hneg]
      exact .number hk.isLiteral hk.value
  | binary op a b iha ihb =>
    obtain ⟨hka, hkb⟩ := List.forall_mem_append.mp hconstants
    obtain ⟨ha, -⟩ := iha hletters.1 hcalls.1 hka
    obtain ⟨hb, -⟩ := ihb hletters.2 hcalls.2 hkb
    exact isWritten_enclosed (ha.binary hb)
  | neg a ih =>
    obtain ⟨ha, -⟩ := ih hletters hcalls hconstants
    exact isWritten_enclosed ha.minus
  | call₀ f => cases f <;> contradiction
  | call₁ f x ih =>
    obtain ⟨-, hx⟩ := ih hletters hcalls.2 hconstants
    have hchars : (call₁ f x).chars = f.letters ++ [] ++ ('(' :: x.chars ++ [')']) := by
      simp [chars]
    refine isWritten_enclosed ?_
    rw [hchars]
    exact .call₁ hcalls.1 rfl hx
  | call₂ f x y ihx ihy =>
    obtain ⟨hkx, hky⟩ := List.forall_mem_append.mp hconstants
    obtain ⟨-, hx⟩ := ihx hletters.1 hcalls.2.1 hkx
    obtain ⟨-, hy⟩ := ihy hletters.2 hcalls.2.2 hky
    have hchars : (call₂ f x y).chars =
        f.letters ++ [] ++ ('(' :: (x.chars ++ ',' :: (' ' :: y.chars)) ++ [')']) := by
      simp [chars]
    refine isWritten_enclosed ?_
    rw [hchars]
    exact .call₂ hcalls.1 rfl rfl hx (hy.blankBefore (by decide))

end Expr

end SymbolicCalculus
