import SymbolicCalculus.Formula.Bracketing
import SymbolicCalculus.Proofs.GroupParsing

/-!
# Tokens that are written out

The tokens of a formula, written out one after another, are cut into the same tokens again, unless a
point by itself stands beside a number that it becomes part of (`Token.ofChars_flatMap_chars`).
Between any other two tokens there is a sign, a comma with a space, or a character that ends a word.
-/

namespace SymbolicCalculus

open Literal (IsLiteral EndsNumber StartsWithoutDigit)
open Formula (EndsWord endsWord_nil endsWord_cons endsWord_closeParen endsWord_comma
  endsWord_symbol)

namespace Token

/-! ## Points beside numbers -/

/-- Do the two tokens become one number when they are written next to each other? -/
def joins : Token → Token → Bool
  | number digits, unknown c => c == '.' && !digits.contains '.'
  | unknown c, number digits => c == '.' && digits.head?.any Char.isDigit
  | _, _ => false

/-! ## Tokens of a text and what follows them -/

/-- The character is neither a symbol nor part of a word, except for a point. -/
structure IsStray (c : Char) : Prop where
  blank : Text.isBlank c = false
  symbol : Operator.ofSymbol? c = none
  plain : c ≠ '(' ∧ c ≠ ')' ∧ c ≠ ','
  digit : c.isDigit = false
  letter : c.isAlpha = false

/-- How a token was cut from a text with these tokens after it: numbers and letters are such, and a
function is called. -/
def IsCutBefore : Token → List Token → Prop
  | number digits, _ => IsLiteral digits
  | letter c, _ => c.isAlpha = true
  | function _, rest => rest.head? = some openParen
  | unknown c, _ => IsStray c
  | _, _ => True

/-- Tokens as they are cut from a text. -/
def AreCut : List Token → Prop
  | [] => True
  | token :: rest => token.IsCutBefore rest ∧ AreCut rest

theorem isCutBefore_first {c : Char} (hc : Text.isBlank c = false) (rest : List Char) :
    (first c rest).1.IsCutBefore (ofChars (first c rest).2) := by
  unfold first
  split
  · trivial
  next hsymbol =>
  split_ifs with hopen hclose hcomma hnumber hletter
  · trivial
  · trivial
  · trivial
  · split
    · next digits rest' h => exact ⟨_, _, h⟩
    · next h =>
      have hdigit := Literal.isDigit_of_literal?_eq_none h
      obtain rfl : c = '.' := by simpa [hdigit] using hnumber
      exact ⟨hc, hsymbol, ⟨hopen, hclose, hcomma⟩, hdigit, rfl⟩
  · split
    · next f afterName h =>
      obtain ⟨blanks, rest', -, hblanks, rfl⟩ := Builtin.eq_of_called? h
      show (ofChars (blanks ++ '(' :: rest')).head? = some openParen
      rw [ofChars_blanks hblanks, ofChars_openParen]
      rfl
    · exact hletter
  · simp only [Bool.or_eq_true, decide_eq_true_eq, not_or] at hnumber
    exact ⟨hc, hsymbol, ⟨hopen, hclose, hcomma⟩, by simpa using hnumber.1, by simpa using hletter⟩

theorem areCut_ofChars (cs : List Char) : AreCut (ofChars cs) := by
  fun_induction ofChars cs with
  | case1 => trivial
  | case2 c rest _ ih => exact ih
  | case3 c rest hc _ ih => exact ⟨isCutBefore_first (by simpa using hc) rest, ih⟩

theorem head?_withProducts (ts : List Token) : (withProducts ts).head? = ts.head? := by
  fun_cases withProducts ts <;> rfl

theorem areCut_withProducts {ts : List Token} (h : AreCut ts) : AreCut (withProducts ts) := by
  fun_induction withProducts ts with
  | case1 a b rest hab ih =>
    refine ⟨?_, trivial, ih h.2⟩
    cases a with
    | function f => exact absurd (Bool.and_eq_true_iff.mp hab).1 Bool.false_ne_true
    | _ => exact h.1
  | case2 a b rest _ ih =>
    refine ⟨?_, ih h.2⟩
    cases a with
    | function f => exact (head?_withProducts (b :: rest)).trans h.1
    | _ => exact h.1
  | case3 => exact h

theorem isChain_withProducts (ts : List Token) : (withProducts ts).IsChain IsSaid := by
  fun_induction withProducts ts with
  | case1 a b rest hab ih =>
    have htimes : IsSaid a (operator .times) := fun h => Bool.false_ne_true h.2
    exact List.isChain_cons_cons.mpr ⟨htimes, isChain_cons_of_endsOperand rfl ih⟩
  | case2 a b rest hab ih =>
    refine List.isChain_cons.mpr ⟨fun d hd => ?_, ih⟩
    rw [head?_withProducts] at hd
    obtain rfl : b = d := Option.some.inj hd
    simpa [IsSaid] using hab
  | case3 ts hts =>
    cases ts with
    | nil => exact .nil
    | cons a us =>
      cases us with
      | nil => exact .singleton a
      | cons b rest => exact absurd rfl (hts a b rest)

/-! ## Tokens written out -/

/-- The next token, if an operand ends before it, does not start with a letter or a digit. -/
theorem not_isWordChar_chars {b : Token} {rest : List Token} (hcut : b.IsCutBefore rest)
    (hstart : b.startsOperand = false) (k : List Char) :
    ∀ c ∈ (b.chars ++ k).head?, c.isDigit = false ∧ c.isAlpha = false := by
  rintro c hc
  cases b with
  | number | letter | function | openParen => contradiction
  | operator op =>
    obtain rfl : op.symbol = c := Option.some.inj hc
    cases op <;> decide
  | closeParen =>
    obtain rfl : ')' = c := Option.some.inj hc
    decide
  | comma =>
    obtain rfl : ',' = c := Option.some.inj hc
    decide
  | unknown d =>
    obtain rfl : d = c := Option.some.inj hc
    exact ⟨hcut.digit, hcut.letter⟩

/-- What is written after an operand ends it, unless it is a point. -/
theorem endsWord_flatMap_chars {ts : List Token} (hcut : AreCut ts)
    (hstart : ∀ b ∈ ts.head?, b.startsOperand = false) (hpoint : unknown '.' ∉ ts.head?) :
    EndsWord (ts.flatMap chars) := by
  cases ts with
  | nil => exact endsWord_nil
  | cons b ts =>
    have hb := hstart b rfl
    rw [List.flatMap_cons]
    cases b with
    | number | letter | function | openParen => contradiction
    | operator op => exact endsWord_symbol op _
    | closeParen => exact endsWord_closeParen _
    | comma => exact endsWord_comma rfl
    | unknown c =>
      have hc : IsStray c := hcut.1
      have hword : ¬ IsWordChar c := by
        rintro (h | h | rfl)
        · simp [hc.letter] at h
        · simp [hc.digit] at h
        · exact hpoint rfl
      exact endsWord_cons hword hc.plain.2.2 _

/-- What is written after a point is no digit, unless it is a number that the point joins. -/
theorem startsWithoutDigit_flatMap_chars {ts : List Token} (hcut : AreCut ts)
    (hjoins : ∀ b ∈ ts.head?, joins (unknown '.') b = false) :
    StartsWithoutDigit (ts.flatMap chars) := by
  cases ts with
  | nil => exact EndsNumber.nil.digit
  | cons b ts =>
    rw [List.flatMap_cons]
    cases b with
    | number digits =>
      have hdigits : IsLiteral digits := hcut.1
      obtain ⟨c, cs, rfl, -⟩ := hdigits.eq_cons
      have hc := hjoins _ rfl
      exact Literal.startsWithoutDigit_cons (by simpa [joins] using hc)
    | letter c =>
      have hc : c.isAlpha = true := hcut.1
      have hdigit := (Bool.or_eq_false_iff.mp (startsNumber_of_isAlpha hc)).1
      exact Literal.startsWithoutDigit_cons hdigit
    | function f => cases f <;> exact Literal.startsWithoutDigit_cons (by decide)
    | openParen => exact Literal.startsWithoutDigit_cons (by decide)
    | operator _ | closeParen | comma | unknown _ =>
      exact fun c hc => (not_isWordChar_chars hcut.1 rfl _ c hc).1

theorem literal?_point {rest : List Char} (h : StartsWithoutDigit rest) :
    Literal.literal? ('.' :: rest) = none := by
  have hintegral : Literal.integral ('.' :: rest) = ([], '.' :: rest) := by
    simp [Literal.integral]
  have hdigits : ([] ++ rest).takeWhile Char.isDigit = [] :=
    Literal.takeWhile_append_digits rfl h
  rw [List.nil_append] at hdigits
  simp [Literal.literal?, hintegral, Literal.fraction, hdigits]

theorem ofChars_unknown {c : Char} (hc : IsStray c) {rest : List Char}
    (hrest : c = '.' → StartsWithoutDigit rest) :
    ofChars (c :: rest) = unknown c :: ofChars rest := by
  refine ofChars_cons hc.blank ?_
  rw [first, hc.symbol]
  simp only [hc.plain, hc.digit, hc.letter, ↓reduceIte, Bool.false_or, decide_eq_true_eq]
  split
  · next hpoint =>
    subst hpoint
    rw [literal?_point (hrest rfl)]
  · rfl

/-- **Tokens that are written out** are cut from the text again, if no point becomes part of a
number beside it. -/
theorem ofChars_flatMap_chars {ts : List Token} (hcut : AreCut ts) (hsaid : ts.IsChain IsSaid)
    (hjoins : ts.IsChain fun a b => joins a b = false) : ofChars (ts.flatMap chars) = ts := by
  induction ts with
  | nil => exact ofChars_nil
  | cons a ts ih =>
    obtain ⟨hnext, hsaid⟩ := List.isChain_cons.mp hsaid
    obtain ⟨hnextJoins, hjoins⟩ := List.isChain_cons.mp hjoins
    have hrest := ih hcut.2 hsaid hjoins
    have hstart (ha : a.endsOperand = true) : ∀ b ∈ ts.head?, b.startsOperand = false :=
      fun b hb => by simpa [IsSaid, ha] using hnext b hb
    rw [List.flatMap_cons]
    cases a with
    | number digits =>
      have hdigits : IsLiteral digits := hcut.1
      have hliteral : Literal.literal? (digits ++ ts.flatMap chars) =
          some (digits, ts.flatMap chars) := by
        by_cases hpoint : unknown '.' ∈ ts.head?
        · -- the number has a point of its own
          have hown : '.' ∈ digits := by simpa [joins] using hnextJoins _ hpoint
          refine hdigits.append_of_point hown (startsWithoutDigit_flatMap_chars hcut.2 ?_)
          intro b hb
          obtain rfl : unknown '.' = b := Option.some.inj (hpoint.symm.trans hb)
          rfl
        · exact hdigits.append (endsWord_flatMap_chars hcut.2 (hstart rfl) hpoint).number
      rw [chars, ofChars_literal hliteral, hrest]
    | letter c =>
      have hc : c.isAlpha = true := hcut.1
      have hletter : ∀ d ∈ (ts.flatMap chars).head?, d.isAlpha = false := by
        cases ts with
        | nil => exact nofun
        | cons b ts =>
          rw [List.flatMap_cons]
          exact fun d hd => (not_isWordChar_chars hcut.2.1 (hstart rfl b rfl) _ d hd).2
      rw [chars, List.singleton_append, ofChars_letter hc hletter, hrest]
    | function f =>
      obtain ⟨us, rfl⟩ := List.head?_eq_some_iff.mp hcut.1
      have hopen : ofChars ('(' :: us.flatMap chars) = openParen :: us := hrest
      have hname := @ofChars_call f [] rfl (us.flatMap chars)
      rw [List.nil_append] at hname
      rwa [← ofChars_openParen, hopen] at hname
    | openParen => exact (ofChars_openParen _).trans (congrArg _ hrest)
    | closeParen => exact (ofChars_closeParen _).trans (congrArg _ hrest)
    | comma =>
      rw [chars, List.cons_append, ofChars_comma, List.singleton_append, ofChars_blank (by decide),
        hrest]
    | operator op => exact (ofChars_operator op _).trans (congrArg _ hrest)
    | unknown c =>
      have hc : IsStray c := hcut.1
      refine (ofChars_unknown hc ?_).trans (congrArg _ hrest)
      rintro rfl
      exact startsWithoutDigit_flatMap_chars hcut.2 hnextJoins

end Token

end SymbolicCalculus
