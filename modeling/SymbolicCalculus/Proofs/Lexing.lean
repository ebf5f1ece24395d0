import Mathlib.Data.List.Chain
import Mathlib.Tactic.SplitIfs
import SymbolicCalculus.Expr.Text
import SymbolicCalculus.Formula.Bracketing
import SymbolicCalculus.Proofs.LiteralText
import SymbolicCalculus.Proofs.Words

/-!
# Texts cut into tokens

What the first token of a text is and where the next one starts, for each kind of token, and which
lists of tokens leave no product unsaid: those in which no two operands stand next to each other.
-/

namespace SymbolicCalculus.Token

open Literal (IsLiteral EndsNumber)

/-! ## Tokens of a text -/

/-- A token as it is read from a text: a number is a number, and a letter is one. -/
def IsLexical : Token → Prop
  | number digits => IsLiteral digits
  | letter c => c.isAlpha = true
  | _ => True

theorem isLexical_first (c : Char) (rest : List Char) : (first c rest).1.IsLexical := by
  unfold first
  split
  · trivial
  · split_ifs
    · trivial
    · trivial
    · trivial
    · split
      · next digits rest' h => exact ⟨_, _, h⟩
      · trivial
    · next halpha =>
      split
      · trivial
      · exact halpha
    · trivial

theorem isLexical_ofChars (cs : List Char) : ∀ token ∈ ofChars cs, token.IsLexical := by
  fun_induction ofChars cs with
  | case1 => exact List.forall_mem_nil _
  | case2 c rest _ ih => exact ih
  | case3 c rest _ _ ih =>
    exact List.forall_mem_cons.mpr ⟨isLexical_first c rest, ih⟩

theorem isLexical_withProducts {ts : List Token} (h : ∀ token ∈ ts, token.IsLexical) :
    ∀ token ∈ withProducts ts, token.IsLexical := by
  fun_induction withProducts ts with
  | case1 a b rest _ ih =>
    obtain ⟨ha, hrest⟩ := List.forall_mem_cons.mp h
    exact List.forall_mem_cons.mpr ⟨ha, List.forall_mem_cons.mpr ⟨trivial, ih hrest⟩⟩
  | case2 a b rest _ ih =>
    obtain ⟨ha, hrest⟩ := List.forall_mem_cons.mp h
    exact List.forall_mem_cons.mpr ⟨ha, ih hrest⟩
  | case3 => exact h

/-! ## One token -/

theorem ofChars_nil : ofChars [] = [] := by
  rw [ofChars]

theorem ofChars_blank {c : Char} (hc : Text.isBlank c = true) (rest : List Char) :
    ofChars (c :: rest) = ofChars rest := by
  rw [ofChars, if_pos hc]

theorem ofChars_cons {c : Char} (hc : Text.isBlank c = false) {rest rest' : List Char}
    {token : Token} (hfirst : first c rest = (token, rest')) :
    ofChars (c :: rest) = token :: ofChars rest' := by
  rw [ofChars, if_neg (by simp [hc])]
  simp only [hfirst]

theorem ofChars_blanks {blanks : List Char} (h : blanks.all Text.isBlank) (rest : List Char) :
    ofChars (blanks ++ rest) = ofChars rest := by
  induction blanks with
  | nil => rfl
  | cons c blanks ih =>
    rw [List.all_cons, Bool.and_eq_true] at h
    rw [List.cons_append, ofChars_blank h.1, ih h.2]

theorem ofChars_operator (op : Operator) (rest : List Char) :
    ofChars (op.symbol :: rest) = operator op :: ofChars rest := by
  refine ofChars_cons (by cases op <;> decide) ?_
  rw [first, Operator.ofSymbol?_symbol]

/-- The spaces around an operator do not count. -/
theorem ofChars_spelling (op : Operator) (rest : List Char) :
    ofChars (op.spelling ++ rest) = operator op :: ofChars rest := by
  cases op with
  | plus =>
    show ofChars (' ' :: Operator.plus.symbol :: ' ' :: rest) = _
    rw [ofChars_blank (by decide), ofChars_operator, ofChars_blank (by decide)]
  | minus =>
    show ofChars (' ' :: Operator.minus.symbol :: ' ' :: rest) = _
    rw [ofChars_blank (by decide), ofChars_operator, ofChars_blank (by decide)]
  | times => exact ofChars_operator .times rest
  | divide => exact ofChars_operator .divide rest
  | power => exact ofChars_operator .power rest

theorem ofChars_openParen (rest : List Char) : ofChars ('(' :: rest) = openParen :: ofChars rest :=
  ofChars_cons (by decide) rfl

theorem ofChars_closeParen (rest : List Char) :
    ofChars (')' :: rest) = closeParen :: ofChars rest :=
  ofChars_cons (by decide) rfl

theorem ofChars_comma (rest : List Char) : ofChars (',' :: rest) = comma :: ofChars rest :=
  ofChars_cons (by decide) rfl

theorem first_literal {c : Char} (hc : c.isDigit = true ∨ c = '.') {rest rest' text : List Char}
    (h : Literal.literal? (c :: rest) = some (text, rest')) :
    first c rest = (number text, rest') := by
  have hword : IsWordChar c := .inr hc
  rw [first, hword.ofSymbol?]
  simp only [hword.ne, ↓reduceIte]
  rw [if_pos (by simpa using hc), h]

/-- A number ends where it is read up to. -/
theorem ofChars_literal {text rest : List Char}
    (h : Literal.literal? (text ++ rest) = some (text, rest)) :
    ofChars (text ++ rest) = number text :: ofChars rest := by
  have hliteral : IsLiteral text := ⟨_, _, h⟩
  obtain ⟨c, cs, rfl, hc⟩ := hliteral.eq_cons
  rw [List.cons_append] at h ⊢
  exact ofChars_cons (IsWordChar.isBlank (.inr hc)) (first_literal hc h)

theorem ofChars_number {text rest : List Char} (h : IsLiteral text) (hrest : EndsNumber rest) :
    ofChars (text ++ rest) = number text :: ofChars rest :=
  ofChars_literal (h.append hrest)

theorem first_letter {c : Char} (hc : c.isAlpha = true) {rest : List Char}
    (hcall : Builtin.called? (c :: rest) = none) : first c rest = (letter c, rest) := by
  have hword : IsWordChar c := .inl hc
  rw [first, hword.ofSymbol?]
  simp only [hword.ne, startsNumber_of_isAlpha hc, hc, hcall, ↓reduceIte, Bool.false_eq_true]

theorem first_function {c : Char} (hc : c.isAlpha = true) {rest rest' : List Char} {f : Builtin}
    (hcall : Builtin.called? (c :: rest) = some (f, rest')) :
    first c rest = (function f, rest') := by
  have hword : IsWordChar c := .inl hc
  rw [first, hword.ofSymbol?]
  simp only [hword.ne, startsNumber_of_isAlpha hc, hc, hcall, ↓reduceIte, Bool.false_eq_true]

/-- The text after a token is the end of the text. -/
theorem first_isSuffix (c : Char) (rest : List Char) : (first c rest).2 <:+ rest := by
  have hcut {word rest' : List Char} (hne : word ≠ []) (h : c :: rest = word ++ rest') :
      rest' <:+ rest := by
    obtain ⟨d, word, rfl⟩ := List.exists_cons_of_ne_nil hne
    exact ⟨word, (List.cons.inj h).2.symm⟩
  unfold first
  split
  · exact List.suffix_rfl
  · split_ifs
    · exact List.suffix_rfl
    · exact List.suffix_rfl
    · exact List.suffix_rfl
    · split
      · next h =>
        exact hcut (Literal.ne_nil_of_literal? h) (Literal.append_of_literal? h).symm
      · exact List.suffix_rfl
    · split
      · next f _ h =>
        obtain ⟨blanks, rest', heq, -, rfl⟩ := Builtin.eq_of_called? h
        obtain ⟨d, letters, hletters, -⟩ := f.letters_eq_cons
        exact hcut (by rw [hletters]; exact List.cons_ne_nil d letters) heq
      · exact List.suffix_rfl
    · exact List.suffix_rfl

theorem ofChars_letter {c : Char} (hc : c.isAlpha = true) {rest : List Char}
    (hrest : ∀ d ∈ rest.head?, d.isAlpha = false) :
    ofChars (c :: rest) = letter c :: ofChars rest :=
  ofChars_cons (IsWordChar.isBlank (.inl hc)) (first_letter hc (Builtin.called?_eq_none hrest))

/-- A call, with blanks between the name and the parenthesis. -/
theorem ofChars_call (f : Builtin) {blanks : List Char} (h : blanks.all Text.isBlank)
    (rest : List Char) :
    ofChars (f.letters ++ (blanks ++ '(' :: rest)) = function f :: openParen :: ofChars rest := by
  have hcall := f.called?_letters_append h rest
  obtain ⟨c, cs, hletters, hc⟩ := f.letters_eq_cons
  rw [hletters, List.cons_append] at hcall ⊢
  rw [ofChars_cons (IsWordChar.isBlank (.inl hc)) (first_function hc hcall), ofChars_blanks h,
    ofChars_openParen]

/-- The tokens of a text with at most `n` characters, by recursion on `n`. In this form they can be
computed in a proof. -/
def ofCharsWithin : Nat → List Char → List Token
  | n + 1, c :: rest =>
    if Text.isBlank c then ofCharsWithin n rest
    else (first c rest).1 :: ofCharsWithin n (first c rest).2
  | _, _ => []

theorem ofCharsWithin_eq {n : Nat} {cs : List Char} (h : cs.length ≤ n) :
    ofCharsWithin n cs = ofChars cs := by
  induction n generalizing cs with
  | zero =>
    obtain rfl := List.length_eq_zero_iff.mp (Nat.le_zero.mp h)
    rw [ofChars_nil]
    rfl
  | succ n ih =>
    cases cs with
    | nil =>
      rw [ofChars_nil]
      rfl
    | cons c rest =>
      have hrest : rest.length ≤ n := Nat.le_of_succ_le_succ h
      rw [ofChars, ofCharsWithin, ih hrest, ih ((length_first_le c rest).trans hrest)]

/-! ## Unsaid products -/

/-- Nothing is left unsaid between two tokens. -/
def IsSaid (a b : Token) : Prop :=
  ¬ (a.endsOperand = true ∧ b.startsOperand = true)

theorem withProducts_eq_self {ts : List Token} (h : ts.IsChain IsSaid) : withProducts ts = ts := by
  fun_induction withProducts ts with
  | case1 a b rest hab ih =>
    have hsaid : IsSaid a b := (List.isChain_cons_cons.mp h).1
    exact absurd (by simpa using hab) hsaid
  | case2 a b rest _ ih => rw [ih (List.isChain_cons_cons.mp h).2]
  | case3 => rfl

theorem isChain_cons_of_endsOperand {a : Token} {ts : List Token} (ha : a.endsOperand = false)
    (hts : ts.IsChain IsSaid) : (a :: ts).IsChain IsSaid := by
  refine List.isChain_cons.mpr ⟨fun b _ hab => ?_, hts⟩
  simp [ha] at hab

theorem isChain_append_of_startsOperand {b : Token} {ts us : List Token}
    (hb : b.startsOperand = false) (hts : ts.IsChain IsSaid) (hus : (b :: us).IsChain IsSaid) :
    (ts ++ b :: us).IsChain IsSaid := by
  refine hts.append hus fun a _ c hc hac => ?_
  obtain rfl : b = c := by simpa using hc
  simp [hb] at hac

end SymbolicCalculus.Token

/-- The tokens of a formula in the form that can be computed. -/
theorem SymbolicCalculus.Formula.tokens_eq (cs : List Char) :
    tokens cs = Token.withProducts (Token.ofCharsWithin cs.length cs) :=
  congrArg Token.withProducts (Token.ofCharsWithin_eq (Nat.le_refl _)).symm
