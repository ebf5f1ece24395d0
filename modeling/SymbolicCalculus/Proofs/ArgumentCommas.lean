import SymbolicCalculus.Binary64.Text
import SymbolicCalculus.Proofs.NumberShape
import SymbolicCalculus.Proofs.ParsedFormula

/-!
# Commas between the parentheses of a call

A comma outside of inner parentheses separates two arguments, or it is part of a number and is kept
in an argument. Which of them it is, the arguments and the numbers decide by themselves: the
arguments by the digits after the comma, and a number also by what it starts with. A comma in a
number is kept. The reverse holds in every call that is read, since a comma that is kept without
being part of a number is no word of an argument (`Formula.isKept_iff_isInNumber`).
-/

namespace SymbolicCalculus

open Literal (StartsWithoutDigit isGroup)
open Nesting (Balanced Separated)

/-! ## Words of a text -/

namespace Token

/-- A word of the first text starts where the second is left of it, or that is its end. -/
inductive Reaches : List Char → List Char → Prop
  | refl (cs : List Char) : Reaches cs cs
  | blank {c : Char} {cs rest : List Char} :
    Text.isBlank c = true → Reaches cs rest → Reaches (c :: cs) rest
  | word {c : Char} {cs rest : List Char} :
    Text.isBlank c = false → Reaches (first c cs).2 rest → Reaches (c :: cs) rest

namespace Reaches

variable {cs ds rest : List Char}

theorem trans (h : Reaches cs ds) (h' : Reaches ds rest) : Reaches cs rest := by
  induction h with
  | refl => exact h'
  | blank hc _ ih => exact .blank hc (ih h')
  | word hc _ ih => exact .word hc (ih h')

/-- The next word starts after the first one. -/
theorem of_first {c : Char} {token : Token} (hc : Text.isBlank c = false)
    (hfirst : first c cs = (token, rest)) : Reaches (c :: cs) rest := by
  refine .word hc ?_
  rw [hfirst]
  exact .refl rest

theorem operator (op : Operator) (rest : List Char) : Reaches (op.symbol :: rest) rest := by
  have hfirst : first op.symbol rest = (.operator op, rest) := by
    rw [first, Operator.ofSymbol?_symbol]
  exact of_first (by cases op <;> decide) hfirst

theorem openParen (rest : List Char) : Reaches ('(' :: rest) rest :=
  of_first (by decide) rfl

theorem closeParen (rest : List Char) : Reaches (')' :: rest) rest :=
  of_first (by decide) rfl

theorem comma (rest : List Char) : Reaches (',' :: rest) rest :=
  of_first (by decide) rfl

theorem blanks (h : cs.all Text.isBlank) (rest : List Char) : Reaches (cs ++ rest) rest := by
  induction cs with
  | nil => exact .refl rest
  | cons c cs ih =>
    rw [List.all_cons, Bool.and_eq_true] at h
    exact .blank h.1 (ih h.2)

/-- A call, with blanks between the name and the parenthesis. -/
theorem call (f : Builtin) (h : cs.all Text.isBlank) (rest : List Char) :
    Reaches (f.letters ++ (cs ++ '(' :: rest)) rest := by
  have hcall := f.called?_letters_append h rest
  obtain ⟨c, letters, hletters, hc⟩ := f.letters_eq_cons
  rw [hletters, List.cons_append] at hcall ⊢
  have hname := of_first (IsWordChar.isBlank (.inl hc)) (first_function hc hcall)
  exact (hname.trans (.blanks h _)).trans (.openParen rest)

theorem number {text : List Char} (h : Literal.IsLiteral text)
    (hrest : Literal.EndsNumber rest) : Reaches (text ++ rest) rest := by
  have hliteral := h.append hrest
  obtain ⟨c, cs, rfl, hc⟩ := h.eq_cons
  exact of_first (IsWordChar.isBlank (.inr hc)) (first_literal hc hliteral)

/-- What is reached stands at the end of the text. -/
theorem isSuffix (h : Reaches cs rest) : rest <:+ cs := by
  induction h with
  | refl cs => exact List.suffix_rfl
  | blank _ _ ih => exact ih.trans (List.suffix_cons _ _)
  | @word c cs rest _ _ ih => exact (ih.trans (first_isSuffix c cs)).trans (List.suffix_cons _ _)

end Reaches

end Token

/-! ## Commas -/

namespace Nesting

/-- The comma between two texts separates two arguments. -/
def Separates (before after : List Char) : Prop :=
  spans (before ++ ',' :: after) = spans before ++ spans after

/-- The comma between two texts is kept in an argument. -/
def IsKept (before after : List Char) : Prop :=
  ∃ front last first back, spans before = front ++ [last] ∧ spans after = first :: back ∧
    spans (before ++ ',' :: after) = front ++ (last ++ ',' :: first) :: back

/-- The comma between two texts is part of a number, if numbers are read from where the words of
the whole text start. -/
def IsInNumber (before after : List Char) : Prop :=
  ∃ start digits more rest, Token.Reaches (before ++ ',' :: after) start ∧
    Literal.literal? start = some (digits ++ ',' :: more, rest) ∧ after = more ++ rest

/-! ## Arguments from the left -/

section spans

variable {cs rest first : List Char} {back : List (List Char)}

/-- The last argument of the first text goes on with the first argument of the second. -/
def Joins (cs rest : List Char) : Prop :=
  ∀ front last first back, spans cs = front ++ [last] → spans rest = first :: back →
    spans (cs ++ rest) = front ++ (last ++ first) :: back

theorem joins_nil (rest : List Char) : Joins [] rest := by
  intro front last first back hcs hrest
  have hnil : spans [] = [[]] := rfl
  cases front with
  | nil =>
    obtain rfl := (List.cons.inj (hnil.symm.trans hcs)).1
    exact hrest
  | cons a front => simp [hnil] at hcs

/-- A word in front of both belongs to the same argument. -/
theorem Joins.prepend (word : List Char) (h : Joins cs rest)
    (hcs : ∀ {a others}, spans cs = a :: others → spans (word ++ cs) = (word ++ a) :: others)
    (happend : ∀ {a others}, spans (cs ++ rest) = a :: others →
      spans (word ++ (cs ++ rest)) = (word ++ a) :: others) : Joins (word ++ cs) rest := by
  intro front last first back hword hrest
  have hspans : spans cs = (splitArguments 0 cs).1 :: (splitArguments 0 cs).2 := rfl
  rw [hcs hspans] at hword
  rw [List.append_assoc]
  cases front with
  | nil =>
    obtain ⟨rfl, hothers⟩ := List.cons.inj hword
    rw [hothers] at hspans
    rw [happend (h [] _ _ _ hspans hrest), List.append_assoc]
    rfl
  | cons a front =>
    obtain ⟨rfl, hothers⟩ := List.cons.inj hword
    rw [hothers] at hspans
    exact happend (h (_ :: front) _ _ _ hspans hrest)

theorem Joins.separator (h : Joins cs rest) (hgroup : isGroup cs = false)
    (hgroup' : isGroup (cs ++ rest) = false) : Joins (',' :: cs) rest := by
  intro front last first back hcs hrest
  rw [spans_separator hgroup] at hcs
  cases front with
  | nil => simp [spans] at hcs
  | cons a front =>
    obtain ⟨ha, hfront⟩ := List.cons.inj hcs
    rw [List.cons_append, spans_separator hgroup', h _ _ _ _ hfront hrest, ha]
    rfl

/-- What stands after a text in which all parentheses are matched goes on with its last argument. -/
theorem Balanced.joins (h : Balanced cs) (hrest : StartsWithoutDigit rest) : Joins cs rest := by
  induction h with
  | nil => exact joins_nil rest
  | @cons c cs hopen hclose _ ih =>
    have hgroup := Literal.isGroup_append_eq cs hrest
    by_cases hc : c = ',' ∧ isGroup cs = false
    · obtain ⟨rfl, hcs⟩ := hc
      exact ih.separator hcs (hgroup.trans hcs)
    · have hkept : c ≠ ',' ∨ isGroup cs = true := by
        by_cases hcomma : c = ','
        · exact .inr (by simpa [hcomma] using hc)
        · exact .inl hcomma
      exact ih.prepend [c] (spans_cons hopen hclose hkept)
        (spans_cons hopen hclose (by rwa [hgroup]))
  | @group inside after hinside _ _ ih =>
    have heq : '(' :: inside ++ ')' :: after = ('(' :: inside ++ [')']) ++ after := by simp
    rw [heq]
    exact ih.prepend _ (spans_enclosed hinside) (spans_enclosed hinside)

end spans

/-! ## Kept commas -/

section commas

variable {before after : List Char}

theorem exists_eq_append_last (cs : List Char) : ∃ front last, spans cs = front ++ [last] :=
  ⟨_, _, (List.dropLast_append_getLast (List.cons_ne_nil _ _)).symm⟩

/-- A comma that separates two arguments is not kept: there is one argument more. -/
theorem Separates.not_isKept (h : Separates before after) : ¬ IsKept before after := by
  rintro ⟨front, last, first, back, hbefore, hafter, hkept⟩
  have hlength := congrArg List.length (hkept.symm.trans h)
  simp only [hbefore, hafter, List.length_append, List.length_cons, List.length_nil] at hlength
  omega

/-- Outside of inner parentheses, a comma separates two arguments if it starts no group. -/
theorem separates_of_isGroup_eq_false (h : Balanced before) (hgroup : isGroup after = false) :
    Separates before after := by
  obtain ⟨front, last, hbefore⟩ := exists_eq_append_last before
  have hcomma : StartsWithoutDigit (',' :: after) := Literal.startsWithoutDigit_cons (by decide)
  rw [Separates, h.joins hcomma _ _ _ _ hbefore (spans_separator hgroup), hbefore]
  simp

/-- Outside of inner parentheses, a comma that starts a group is kept. -/
theorem isKept_of_isGroup (h : Balanced before) (hgroup : isGroup after = true) :
    IsKept before after := by
  obtain ⟨front, last, hbefore⟩ := exists_eq_append_last before
  have hcomma : StartsWithoutDigit (',' :: after) := Literal.startsWithoutDigit_cons (by decide)
  have hafter := spans_cons (c := ',') (by decide) (by decide) (.inr hgroup) rfl
  exact ⟨front, last, _, _, hbefore, rfl, h.joins hcomma _ _ _ _ hbefore hafter⟩

theorem isKept_iff_isGroup (h : Balanced before) :
    IsKept before after ↔ isGroup after = true := by
  refine ⟨fun hkept => ?_, isKept_of_isGroup h⟩
  by_contra hgroup
  exact (separates_of_isGroup_eq_false h (by simpa using hgroup)).not_isKept hkept

theorem separates_iff_not_isKept (h : Balanced before) :
    Separates before after ↔ ¬ IsKept before after := by
  refine ⟨Separates.not_isKept, fun hkept => separates_of_isGroup_eq_false h ?_⟩
  rw [isKept_iff_isGroup h] at hkept
  simpa using hkept

end commas

/-! ## Commas in numbers -/

section numbers

variable {before after : List Char}

/-- A comma in a number has three digits after it. -/
theorem isGroup_of_literal? {cs digits more rest : List Char}
    (h : Literal.literal? cs = some (digits ++ ',' :: more, rest)) :
    isGroup (more ++ rest) = true :=
  ((Literal.isNumber_of_literal? h).comma digits more rfl).isGroup

/-- A comma in a number is kept. -/
theorem IsInNumber.isKept (h : IsInNumber before after) (hbefore : Balanced before) :
    IsKept before after := by
  obtain ⟨start, digits, more, rest, -, hliteral, rfl⟩ := h
  exact isKept_of_isGroup hbefore (isGroup_of_literal? hliteral)

/-- The number that a comma is part of starts before it. -/
theorem IsInNumber.exists_eq_append (h : IsInNumber before after) :
    ∃ lead c digits, before = lead ++ c :: digits ∧ (c.isDigit = true ∨ c = '.') := by
  obtain ⟨start, digits, more, rest, hstart, hliteral, rfl⟩ := h
  obtain ⟨lead, hlead⟩ := hstart.isSuffix
  rw [← Literal.append_of_literal? hliteral] at hlead
  have hbefore : before = lead ++ digits := by
    have hlead' : (lead ++ digits) ++ ',' :: (more ++ rest) = before ++ ',' :: (more ++ rest) := by
      simpa using hlead
    exact (List.append_cancel_right hlead').symm
  have hnumber : Literal.IsLiteral (digits ++ ',' :: more) := ⟨start, rest, hliteral⟩
  obtain ⟨c, cs, htext, hc⟩ := hnumber.eq_cons
  cases digits with
  | nil =>
    obtain rfl := (List.cons.inj htext).1
    rcases hc with hc | hc <;> contradiction
  | cons d digits =>
    obtain rfl := (List.cons.inj htext).1
    exact ⟨lead, d, digits, hbefore, hc⟩

/-- A comma is part of a number after any words as well. -/
theorem IsInNumber.prepend (word : List Char) (h : IsInNumber before after)
    (hword : Token.Reaches (word ++ (before ++ ',' :: after)) (before ++ ',' :: after)) :
    IsInNumber (word ++ before) after := by
  obtain ⟨start, digits, more, rest, hstart, hliteral, hafter⟩ := h
  refine ⟨start, digits, more, rest, ?_, hliteral, hafter⟩
  rw [List.append_assoc]
  exact hword.trans hstart

end numbers

end Nesting

namespace Formula

open Nesting (IsInNumber IsKept Separates)

variable {α : Type} [Numeral α] {piece : Piece} {n : Nat} {cs rest : List Char} {e : Expr α}

/-! ## Commas in texts that are read -/

theorem Separated.reaches {inside : List Char} {spans : List (List Char)}
    (h : Separated inside spans)
    (hspans : ∀ span ∈ spans, ∀ rest, EndsWord rest → Token.Reaches (span ++ rest) rest)
    (hrest : EndsWord rest) : Token.Reaches (inside ++ rest) rest := by
  induction h with
  | last cs => exact hspans cs (List.mem_singleton_self cs) rest hrest
  | @comma cs ds _ hgroup _ ih =>
    obtain ⟨hcs, hds⟩ := List.forall_mem_cons.mp hspans
    rw [List.append_assoc, List.cons_append]
    have hgroup' : Literal.isGroup (ds ++ rest) = false := by
      rw [Literal.isGroup_append_eq ds hrest.number.digit, hgroup]
    exact ((hcs _ (endsWord_comma hgroup')).trans (.comma _)).trans (ih hds)

/-- The words of a derived text end where the text does. -/
theorem Derives.reaches (h : Derives piece n cs e) (hrest : EndsWord rest) :
    Token.Reaches (cs ++ rest) rest := by
  induction h generalizing rest with
  | operand _ ih => exact ih hrest
  | operator op _ _ iha ihb =>
    rw [List.append_assoc, List.cons_append]
    exact ((iha (endsWord_symbol op _)).trans (.operator op _)).trans (ihb hrest)
  | @blankAfter _ c _ _ hc _ ih =>
    rw [List.append_assoc]
    exact (ih (endsWord_blank hc rest)).trans (.blank hc (.refl rest))
  | blankBefore hc _ ih => exact .blank hc (ih hrest)
  | minus _ ih => exact (Token.Reaches.operator .minus _).trans (ih hrest)
  | plus _ ih => exact (Token.Reaches.operator .plus _).trans (ih hrest)
  | @parentheses _ cs _ _ ih =>
    have heq : '(' :: cs ++ [')'] ++ rest = '(' :: (cs ++ ')' :: rest) := by simp
    rw [heq]
    exact ((Token.Reaches.openParen _).trans (ih (endsWord_closeParen rest))).trans
      (.closeParen rest)
  | @call _ f blanks inside _ _ hblanks _ hseparated _ ih =>
    have heq : f.letters ++ blanks ++ ('(' :: inside ++ [')']) ++ rest =
        f.letters ++ (blanks ++ '(' :: (inside ++ ')' :: rest)) := by simp
    have hinside := Separated.reaches hseparated
      (List.forall_mem_map.mpr fun x hx rest hrest => ih x hx hrest) (endsWord_closeParen rest)
    rw [heq]
    exact ((Token.Reaches.call f hblanks _).trans hinside).trans (.closeParen rest)
  | number hdigits _ => exact .number hdigits hrest.number
  | letter hc =>
    exact .of_first (IsWordChar.isBlank (.inl hc))
      (Token.first_letter hc (Builtin.called?_eq_none hrest.letter))

/-- A comma between parentheses is not outside of them. -/
theorem not_balanced_of_enclosed {inside before after : List Char} (hinside : Balanced inside)
    (h : '(' :: inside ++ [')'] = before ++ ',' :: after) : ¬ Balanced before := by
  obtain ⟨more, rfl, hmore⟩ :=
    Literal.exists_of_append_eq_of_not_mem ['('] (by decide) h
  obtain ⟨more', rfl, -⟩ | ⟨more', -, hclose⟩ := Literal.exists_of_append_eq hmore
  · exact hinside.not_open
  · have hmem : ',' ∈ more' ++ ',' :: after := List.mem_append_right more' List.mem_cons_self
    rw [← hclose] at hmem
    exact absurd hmem (by decide)

/-- Outside of parentheses, all commas of the text are parts of numbers. -/
def HasNumberCommas (cs : List Char) : Prop :=
  ∀ before more rest, cs = before ++ ',' :: more → Balanced before → EndsWord rest →
    IsInNumber before (more ++ rest)

theorem HasNumberCommas.of_not_mem (h : ',' ∉ cs) : HasNumberCommas cs := by
  rintro before more rest rfl
  simp at h

/-- A character that is a word by itself, and text after it. -/
theorem HasNumberCommas.cons {c : Char} (h : HasNumberCommas cs) (hopen : c ≠ '(')
    (hcomma : c ≠ ',') (hreaches : ∀ rest, Token.Reaches (c :: rest) rest) :
    HasNumberCommas (c :: cs) := by
  intro before more rest hcs hbefore hrest
  obtain ⟨between, rfl, hright⟩ := Literal.exists_of_append_eq_of_not_mem [c]
    (by simpa using hcomma.symm) hcs
  exact (h between more rest hright (hbefore.of_cons hopen) hrest).prepend [c] (hreaches _)

/-- Text after a derived one. -/
theorem HasNumberCommas.append {ds : List Char} (hcs : Derives piece n cs e)
    (hends : ∀ rest, EndsWord (ds ++ rest)) (hleft : HasNumberCommas cs)
    (hright : HasNumberCommas ds) : HasNumberCommas (cs ++ ds) := by
  intro before more rest heq hbefore hrest
  obtain ⟨between, rfl, rfl⟩ | ⟨between, rfl, rfl⟩ := Literal.exists_of_append_eq heq
  · rw [List.append_assoc]
    exact hleft before between _ rfl hbefore (hends rest)
  · have hnumber := hright between more rest rfl (hbefore.of_append hcs.balanced) hrest
    refine hnumber.prepend cs (hcs.reaches ?_)
    have := hends rest
    rwa [List.append_assoc] at this

/-- Outside of parentheses, a comma in a derived text is part of a number. -/
theorem Derives.hasNumberCommas (h : Derives piece n cs e) : HasNumberCommas cs := by
  induction h with
  | operand _ ih => exact ih
  | operator op ha _ iha ihb =>
    exact .append ha (fun _ => endsWord_symbol op _) iha
      (ihb.cons op.plain_symbol.1 op.plain_symbol.2.2 (.operator op))
  | blankAfter hc hcs ih =>
    have hcomma := (Text.plain_of_isBlank hc).2.2
    exact .append hcs (endsWord_blank hc) ih (.of_not_mem (by simpa using hcomma.symm))
  | blankBefore hc _ ih =>
    have hplain := Text.plain_of_isBlank hc
    exact ih.cons hplain.1 hplain.2.2 fun rest => .blank hc (.refl rest)
  | minus _ ih => exact ih.cons (by decide) (by decide) (.operator .minus)
  | plus _ ih => exact ih.cons (by decide) (by decide) (.operator .plus)
  | parentheses h _ =>
    exact fun before more rest hcs hbefore _ =>
      absurd hbefore (not_balanced_of_enclosed h.balanced hcs)
  | @call _ f blanks inside _ _ hblanks harguments hseparated _ _ =>
    intro before more rest hcs hbefore _
    have hinside : Balanced inside :=
      hseparated.balanced (List.forall_mem_map.mpr fun x hx => (harguments x hx).balanced)
    obtain ⟨between, rfl, hright⟩ := Literal.exists_of_append_eq_of_not_mem _
      (fun hmem => (plain_name f hblanks _ hmem).2.2 rfl) hcs
    exact absurd (hbefore.of_append (balanced_name f hblanks))
      (not_balanced_of_enclosed hinside hright)
  | number hdigits _ =>
    rintro before more rest rfl _ hrest
    refine ⟨_, before, more, rest, .refl _, ?_, rfl⟩
    have hliteral := hdigits.append hrest.number
    rwa [List.append_assoc] at hliteral
  | letter hc => exact .of_not_mem (by simpa using (IsWordChar.ne (.inl hc)).2.2.symm)

/-- Outside of parentheses, a comma that is kept in an argument is part of a number. -/
theorem isInNumber_of_separated {inside : List Char} {spans : List (List Char)}
    (h : Separated inside spans)
    (hspans : ∀ span ∈ spans, ∃ e : Expr α, Derives .group n span e)
    {before after : List Char} (hinside : inside = before ++ ',' :: after)
    (hbefore : Balanced before) (hgroup : isGroup after = true) : IsInNumber before after := by
  induction h generalizing before with
  | last cs =>
    obtain ⟨e, he⟩ := hspans cs (List.mem_singleton_self cs)
    have hnumber := he.hasNumberCommas before after [] hinside hbefore endsWord_nil
    rwa [List.append_nil] at hnumber
  | @comma cs ds _ hds _ ih =>
    obtain ⟨⟨e, he⟩, hothers⟩ := List.forall_mem_cons.mp hspans
    obtain ⟨more, hcs, rfl⟩ | ⟨more, rfl, hright⟩ := Literal.exists_of_append_eq hinside
    · exact he.hasNumberCommas before more _ hcs hbefore (endsWord_comma hds)
    · cases more with
      | nil =>
        -- this comma separates the argument from the next one
        obtain rfl := (List.cons.inj hright).2
        rw [hds] at hgroup
        contradiction
      | cons c more =>
        obtain ⟨rfl, rfl⟩ := List.cons.inj hright
        have hmore := (hbefore.of_append he.balanced).of_cons (by decide)
        have hnumber : IsInNumber (',' :: more) after :=
          (ih hothers rfl hmore).prepend [','] (.comma _)
        exact hnumber.prepend cs (he.reaches (endsWord_comma hds))

theorem exists_derives_of_arguments {limit depth start : Nat} {spans : List (List Char)}
    {es : List (Expr α)} (h : arguments limit depth start spans = .ok es) :
    ∀ span ∈ spans, ∃ e : Expr α, Derives .group (limit - depth) span e := by
  obtain ⟨xs, rfl, -, hxs⟩ := groups_of_arguments h
  refine List.forall_mem_map.mpr fun x hx => ?_
  obtain ⟨start, hgroup⟩ := hxs x hx
  obtain ⟨hlimit, hoperands⟩ := group_eq_ok hgroup
  exact ⟨x.2, HasRead.start.of_operands (Nat.add_sub_cancel' hlimit) hoperands⟩

/-- **The arguments of a call and its numbers agree about a comma** outside of inner parentheses if
it is part of a number, and they agree about all of them if the arguments are read. A comma that is
not part of a number is kept where exactly three digits follow it. -/
theorem isKept_iff_isInNumber {before : List Char} (hbefore : Balanced before)
    (after : List Char) :
    (IsInNumber before after → IsKept before after) ∧
      (¬ IsInNumber before after → (IsKept before after ↔ isGroup after = true)) ∧
      (Separates before after ↔ ¬ IsKept before after) ∧
      ∀ limit depth start (es : List (Expr α)),
        arguments limit depth start (Nesting.spans (before ++ ',' :: after)) = .ok es →
        (IsKept before after ↔ IsInNumber before after) := by
  refine ⟨fun h => h.isKept hbefore, fun _ => Nesting.isKept_iff_isGroup hbefore,
    Nesting.separates_iff_not_isKept hbefore, fun limit depth start es h => ?_⟩
  refine ⟨fun hkept => ?_, fun h => h.isKept hbefore⟩
  exact isInNumber_of_separated (Nesting.separated_splitArguments 0 _)
    (exists_derives_of_arguments h) rfl hbefore ((Nesting.isKept_iff_isGroup hbefore).mp hkept)

/-- The first comma between the parentheses of `log(1,234, x)` is part of a number. -/
theorem isKept_of_thousands :
    let before : List Char := ['1']
    let after : List Char := ['2', '3', '4', ',', ' ', 'x']
    let es : List (Expr Binary64) := [.const (Numeral.ofDecimal 1234 0), .param "x"]
    Balanced before ∧ IsInNumber before after ∧
      arguments 512 1 4 (Nesting.spans (before ++ ',' :: after)) = .ok es ∧
      IsKept before after ∧ ¬ Separates before after := by
  intro before after es
  have hbefore : Balanced before := .cons (by decide) (by decide) .nil
  have hnumber : IsInNumber before after :=
    ⟨_, ['1'], ['2', '3', '4'], [',', ' ', 'x'], .refl _, by decide, rfl⟩
  have hfirst : Derives .operand 511 ['1', ',', '2', '3', '4']
      (.const (Numeral.ofDecimal 1234 0) : Expr Binary64) :=
    .number ⟨['1', ',', '2', '3', '4'], [], by decide⟩ rfl
  have hsecond : Derives .operand 511 [' ', 'x'] (.param "x" : Expr Binary64) :=
    .blankBefore rfl (.letter rfl)
  let xs := [(['1', ',', '2', '3', '4'], .const (Numeral.ofDecimal 1234 0)),
    ([' ', 'x'], (.param "x" : Expr Binary64))]
  have hxs : ∀ x ∈ xs, IsParsed .group 511 x.1 x.2 :=
    List.forall_mem_cons.mpr ⟨(Derives.operand hfirst).isParsed,
      List.forall_mem_singleton.mpr (Derives.operand hsecond).isParsed⟩
  have harguments : arguments 512 1 4 (Nesting.spans (before ++ ',' :: after)) = .ok es :=
    arguments_eq_ok hxs (by decide)
  obtain ⟨hkept, -, hseparates, -⟩ := isKept_iff_isInNumber (α := Binary64) hbefore after
  exact ⟨hbefore, hnumber, harguments, hkept hnumber, fun h => hseparates.mp h (hkept hnumber)⟩

/-- Between the parentheses of `log(x,100)` the comma is kept although it is not part of a number,
and the call is not read. -/
theorem isKept_without_number :
    let before : List Char := ['x']
    let after : List Char := ['1', '0', '0']
    Balanced before ∧ IsKept before after ∧ ¬ IsInNumber before after ∧
      ∀ limit depth start (es : List (Expr Binary64)),
        arguments limit depth start (Nesting.spans (before ++ ',' :: after)) ≠ .ok es := by
  intro before after
  have hbefore : Balanced before := .cons (by decide) (by decide) .nil
  have hnumber : ¬ IsInNumber before after := by
    intro h
    obtain ⟨lead, c, digits, heq, hc⟩ := h.exists_eq_append
    have hmem : c ∈ before := heq ▸ List.mem_append_right lead List.mem_cons_self
    obtain rfl := List.mem_singleton.mp hmem
    rcases hc with hc | hc <;> contradiction
  refine ⟨hbefore, Nesting.isKept_of_isGroup hbefore (by decide), hnumber, ?_⟩
  intro limit depth start es h
  exact hnumber (isInNumber_of_separated (Nesting.separated_splitArguments 0 _)
    (exists_derives_of_arguments h) rfl hbefore (by decide))

end Formula

end SymbolicCalculus
