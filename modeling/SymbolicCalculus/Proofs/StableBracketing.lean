import SymbolicCalculus.Proofs.Grammar
import SymbolicCalculus.Proofs.WrittenTokens

/-!
# Bracketing what has been bracketed

A formula with its parentheses written out is bracketed into the same text again:
`Formula.parenthesize_parenthesize`. Bracketing makes a term whose numbers, letters and calls were
cut from the text (`Term.isLexical_of_ofTokens?`). The text of such a term is cut into the tokens
that it was written with, no product is left unsaid between them, and with parentheses around every
operator and every negation each of its parts is one operand, so that climbing has no choice left
(`Term.IsLexical.isOneOperand`).
-/

namespace SymbolicCalculus

open Literal (IsLiteral)
open Token (AreCut IsSaid joins)

namespace Token

/-! ## Tokens after each other -/

theorem IsCutBefore.append {a : Token} {ts : List Token} (h : a.IsCutBefore ts)
    (us : List Token) : a.IsCutBefore (ts ++ us) := by
  cases a with
  | function f =>
    obtain ⟨rest, rfl⟩ := List.head?_eq_some_iff.mp h
    rfl
  | _ => exact h

theorem AreCut.append {ts us : List Token} (hts : AreCut ts) (hus : AreCut us) :
    AreCut (ts ++ us) := by
  induction ts with
  | nil => exact hus
  | cons a ts ih => exact ⟨hts.1.append us, ih hts.2⟩

/-- Only a character that starts no other token can become part of a number beside it. -/
theorem joins_eq_false {a b : Token} (ha : ∀ c, a ≠ unknown c) (hb : ∀ c, b ≠ unknown c) :
    joins a b = false := by
  cases a with
  | unknown c => exact absurd rfl (ha c)
  | number digits =>
    cases b with
    | unknown c => exact absurd rfl (hb c)
    | _ => rfl
  | _ => rfl

/-- Tokens that are cut from their own text again: each of them stands where it is one, nothing is
left unsaid between them, and each was understood. -/
structure AreWritten (ts : List Token) : Prop where
  cut : AreCut ts
  said : ts.IsChain IsSaid
  known : ∀ token ∈ ts, ∀ c, token ≠ unknown c

namespace AreWritten

variable {a b : Token} {ts us : List Token}

theorem singleton (hcut : a.IsCutBefore []) (hknown : ∀ c, a ≠ unknown c) : AreWritten [a] :=
  ⟨⟨hcut, trivial⟩, .singleton a, List.forall_mem_singleton.mpr hknown⟩

/-- A token that no operand ends with stands in front. -/
theorem cons (h : AreWritten ts) (hcut : a.IsCutBefore ts) (hends : a.endsOperand = false)
    (hknown : ∀ c, a ≠ unknown c) : AreWritten (a :: ts) :=
  ⟨⟨hcut, h.cut⟩, isChain_cons_of_endsOperand hends h.said,
    List.forall_mem_cons.mpr ⟨hknown, h.known⟩⟩

/-- A token that no operand starts with stands between two parts. -/
theorem append (hts : AreWritten ts) (hb : b.startsOperand = false)
    (hus : AreWritten (b :: us)) : AreWritten (ts ++ b :: us) :=
  ⟨hts.cut.append hus.cut, isChain_append_of_startsOperand hb hts.said hus.said,
    List.forall_mem_append.mpr ⟨hts.known, hus.known⟩⟩

theorem operator (op : Operator) (h : AreWritten ts) : AreWritten (operator op :: ts) :=
  h.cons trivial rfl nofun

theorem comma (h : AreWritten ts) : AreWritten (comma :: ts) :=
  h.cons trivial rfl nofun

theorem enclosed (h : AreWritten ts) : AreWritten (openParen :: ts ++ [closeParen]) := by
  have hopen : AreWritten (openParen :: ts) := h.cons trivial rfl nofun
  exact hopen.append rfl (.singleton trivial nofun)

/-- Tokens that are written out are all the tokens of their text. -/
theorem tokens_flatMap_chars (h : AreWritten ts) : Formula.tokens (ts.flatMap chars) = ts := by
  have hjoins : ts.IsChain fun a b => joins a b = false :=
    h.said.imp_of_mem_imp fun a b ha hb _ => joins_eq_false (h.known a ha) (h.known b hb)
  rw [Formula.tokens, ofChars_flatMap_chars h.cut h.said hjoins, withProducts_eq_self h.said]

end AreWritten

end Token

namespace Term

open Token (AreWritten)
open Formula (IsClimbed IsOneOperand isClimbed_minus isClimbed_operator
  isClimbed_product_of_signed isClimbed_sum_of_product isOneOperand_group isOneOperand_letter
  isOneOperand_number)

/-! ## Terms of a text -/

/-- A term as bracketing makes it of a text: its numbers and letters are such, and its calls have
arguments. -/
inductive IsLexical : Term → Prop
  | number {digits : List Char} : IsLiteral digits → IsLexical (number digits)
  | letter {c : Char} : c.isAlpha = true → IsLexical (letter c)
  | neg {t : Term} : IsLexical t → IsLexical (neg t)
  | binary {op : Operator} {t u : Term} : IsLexical t → IsLexical u → IsLexical (binary op t u)
  | call {f : Builtin} {ts : List Term} :
    ts ≠ [] → (∀ t ∈ ts, IsLexical t) → IsLexical (call f ts)

/-- What was read, if anything was, has the property, and the tokens after it are those of a
text. -/
def ReadsLexical {β : Type} {n : Nat} (P : β → Prop) (reading? : Option (Reading β n)) : Prop :=
  ∀ r ∈ reading?, P r.value ∧ ∀ token ∈ r.rest, token.IsLexical

namespace ReadsLexical

variable {β γ : Type} {m n : Nat} {P : β → Prop} {Q : γ → Prop}

theorem none : ReadsLexical P (none : Option (Reading β n)) := nofun

theorem some {b : β} {rest : List Token} {h : rest.length < n} (hb : P b)
    (hrest : ∀ token ∈ rest, token.IsLexical) : ReadsLexical P (some ⟨b, rest, h⟩) := by
  rintro _ ⟨rfl⟩
  exact ⟨hb, hrest⟩

theorem map {reading? : Option (Reading β m)} (h : ReadsLexical P reading?)
    {f : Reading β m → Reading γ n} (hvalue : ∀ r, P r.value → Q (f r).value)
    (hrest : ∀ r, (f r).rest = r.rest) : ReadsLexical Q (reading?.map f) := by
  intro r' hr'
  obtain ⟨r, hr, rfl⟩ := Option.map_eq_some_iff.mp hr'
  rw [hrest]
  exact ⟨hvalue r (h r hr).1, (h r hr).2⟩

end ReadsLexical

-- The recursion is that of the readings, and it ends because fewer tokens are left, as theirs does.
mutual

theorem readsLexical_expression? (min : Precedence) {ts : List Token}
    (hts : ∀ token ∈ ts, token.IsLexical) : ReadsLexical IsLexical (expression? min ts) := by
  rw [expression?]
  split
  · exact .none
  · next left hleft =>
    obtain ⟨ht, hrest⟩ := readsLexical_operand? hts left hleft
    have := left.shorter
    exact (readsLexical_climb? min ht hrest).map (fun _ => id) fun _ => rfl
termination_by (ts.length, 2)

theorem readsLexical_climb? (min : Precedence) {left : Term} {ts : List Token}
    (hleft : left.IsLexical) (hts : ∀ token ∈ ts, token.IsLexical) :
    ReadsLexical IsLexical (climb? min left ts) := by
  rw [climb?.eq_def]
  split
  · next op rest =>
    split
    · exact .some hleft hts
    · split
      · exact .none
      · next right hright =>
        obtain ⟨hu, hrest⟩ :=
          readsLexical_expression? op.rightPrecedence (List.forall_mem_cons.mp hts).2 right hright
        have := Nat.lt_succ_of_lt right.shorter
        exact (readsLexical_climb? min (.binary hleft hu) hrest).map (fun _ => id) fun _ => rfl
  · exact .some hleft hts
termination_by (ts.length, 0)

theorem readsLexical_operand? {ts : List Token} (hts : ∀ token ∈ ts, token.IsLexical) :
    ReadsLexical IsLexical (operand? ts) := by
  rw [operand?.eq_def]
  split
  · next rest =>
    have hrest := (List.forall_mem_cons.mp hts).2
    exact (readsLexical_expression? .exponent hrest).map (fun _ => .neg) fun _ => rfl
  · next rest =>
    have hrest := (List.forall_mem_cons.mp hts).2
    exact (readsLexical_expression? .exponent hrest).map (fun _ => id) fun _ => rfl
  · next digits rest =>
    obtain ⟨hdigits, hrest⟩ := List.forall_mem_cons.mp hts
    exact .some (.number hdigits) hrest
  · next c rest =>
    obtain ⟨hc, hrest⟩ := List.forall_mem_cons.mp hts
    exact .some (.letter hc) hrest
  · next rest =>
    split
    · next t rest' h hread =>
      have hrest := (List.forall_mem_cons.mp hts).2
      obtain ⟨ht, hafter⟩ := readsLexical_expression? .additive hrest _ hread
      exact .some ht (List.forall_mem_cons.mp hafter).2
    · exact .none
  · next f rest =>
    have hrest := (List.forall_mem_cons.mp (List.forall_mem_cons.mp hts).2).2
    exact (readsLexical_arguments? hrest).map (fun _ h => .call h.1 h.2) fun _ => rfl
  · exact .none
termination_by (ts.length, 1)

theorem readsLexical_arguments? {ts : List Token} (hts : ∀ token ∈ ts, token.IsLexical) :
    ReadsLexical (fun us => us ≠ [] ∧ ∀ t ∈ us, IsLexical t) (arguments? ts) := by
  rw [arguments?]
  split
  · next t rest h hread =>
    obtain ⟨ht, hafter⟩ := readsLexical_expression? .additive hts _ hread
    have : rest.length < ts.length := Nat.lt_of_succ_lt h
    refine (readsLexical_arguments? (List.forall_mem_cons.mp hafter).2).map (fun r hr => ?_)
      fun _ => rfl
    exact ⟨List.cons_ne_nil t r.value, List.forall_mem_cons.mpr ⟨ht, hr.2⟩⟩
  · next t rest h hread =>
    obtain ⟨ht, hafter⟩ := readsLexical_expression? .additive hts _ hread
    exact .some ⟨List.cons_ne_nil t [], List.forall_mem_singleton.mpr ht⟩
      (List.forall_mem_cons.mp hafter).2
  · exact .none
termination_by (ts.length, 3)

end

theorem isLexical_of_ofTokens? {ts : List Token} {t : Term} (hts : ∀ token ∈ ts, token.IsLexical)
    (h : ofTokens? ts = some t) : t.IsLexical := by
  unfold ofTokens? at h
  split at h
  · next t' hlt hread =>
    obtain rfl := Option.some.inj h
    exact (readsLexical_expression? .additive hts _ hread).1
  · contradiction

/-! ## Terms written as tokens -/

mutual

/-- The term with all its parentheses, as tokens. -/
def tokens : Term → List Token
  | number digits => [.number digits]
  | letter c => [.letter c]
  | neg t => .openParen :: .operator .minus :: t.tokens ++ [.closeParen]
  | binary op a b => .openParen :: a.tokens ++ .operator op :: b.tokens ++ [.closeParen]
  | call f arguments => .function f :: .openParen :: argumentTokens arguments ++ [.closeParen]

/-- The arguments of a call, with a comma between them. -/
def argumentTokens : List Term → List Token
  | [] => []
  | [t] => t.tokens
  | t :: ts => t.tokens ++ .comma :: argumentTokens ts

end

mutual

theorem flatMap_chars_tokens (t : Term) : t.tokens.flatMap Token.chars = t.chars := by
  cases t with
  | number digits => simp [tokens, chars, Token.chars]
  | letter c => simp [tokens, chars, Token.chars]
  | neg t =>
    have ih := flatMap_chars_tokens t
    simp [tokens, chars, Token.chars, Operator.symbol, ih]
  | binary op a b =>
    have iha := flatMap_chars_tokens a
    have ihb := flatMap_chars_tokens b
    simp [tokens, chars, Token.chars, iha, ihb]
  | call f ts =>
    have ih := flatMap_chars_argumentTokens ts
    simp [tokens, chars, Token.chars, ih]

theorem flatMap_chars_argumentTokens (ts : List Term) :
    (argumentTokens ts).flatMap Token.chars = argumentChars ts := by
  match ts with
  | [] => rfl
  | [t] => exact flatMap_chars_tokens t
  | t :: u :: ts =>
    have iht := flatMap_chars_tokens t
    have ihts := flatMap_chars_argumentTokens (u :: ts)
    simp [argumentTokens, argumentChars, Token.chars, iht, ihts]

end

theorem areWritten_argumentTokens {ts : List Term} (hne : ts ≠ [])
    (h : ∀ t ∈ ts, AreWritten t.tokens) : AreWritten (argumentTokens ts) := by
  induction ts with
  | nil => contradiction
  | cons t ts ih =>
    obtain ⟨ht, hts⟩ := List.forall_mem_cons.mp h
    cases ts with
    | nil => exact ht
    | cons u us => exact ht.append rfl (ih (List.cons_ne_nil u us) hts).comma

theorem readArguments_argumentTokens {ts : List Term} (hne : ts ≠ [])
    (h : ∀ t ∈ ts, IsOneOperand t.tokens t) (rest : List Token) :
    readArguments (argumentTokens ts ++ .closeParen :: rest) = some (ts, rest) := by
  induction ts with
  | nil => contradiction
  | cons t ts ih =>
    obtain ⟨ht, hts⟩ := List.forall_mem_cons.mp h
    have hall : IsClimbed .sum t.tokens t := ht.climbed .sum
    cases ts with
    | nil =>
      exact readArguments_last (hall.expression (stops_closeParen _ _) (stops_closeParen _ _))
    | cons u us =>
      have heq : argumentTokens (t :: u :: us) ++ .closeParen :: rest =
          t.tokens ++ .comma :: (argumentTokens (u :: us) ++ .closeParen :: rest) := by
        simp [argumentTokens]
      rw [heq, readArguments_comma (hall.expression (stops_comma _ _) (stops_comma _ _)),
        ih (List.cons_ne_nil u us) hts]
      rfl

namespace IsLexical

theorem areWritten {t : Term} (h : t.IsLexical) : AreWritten t.tokens := by
  induction h with
  | number hdigits => exact .singleton hdigits nofun
  | letter hc => exact .singleton hc nofun
  | neg _ ih => exact (ih.operator .minus).enclosed
  | @binary op _ _ _ _ iht ihu => exact (iht.append rfl (ihu.operator op)).enclosed
  | call hne _ ih => exact (areWritten_argumentTokens hne ih).enclosed.cons rfl rfl nofun

theorem isOneOperand {t : Term} (h : t.IsLexical) : IsOneOperand t.tokens t := by
  induction h with
  | @number digits _ => exact isOneOperand_number digits
  | @letter c _ => exact isOneOperand_letter c
  | neg _ ih =>
    have hminus := isClimbed_minus (ih.climbed .signed)
    exact isOneOperand_group
      (isClimbed_sum_of_product (isClimbed_product_of_signed hminus))
  | @binary op _ _ _ _ iht ihu => exact isOneOperand_group (isClimbed_operator op iht ihu)
  | @call f ts hne _ ih =>
    intro rest
    have heq : (Term.call f ts).tokens ++ rest =
        .function f :: .openParen :: (argumentTokens ts ++ .closeParen :: rest) := by
      simp [tokens]
    rw [heq, readOperand_call, readArguments_argumentTokens hne ih]
    rfl

/-- The text of a term is made of the tokens that the term is written with. -/
theorem tokens_chars {t : Term} (h : t.IsLexical) : Formula.tokens t.chars = t.tokens := by
  rw [← flatMap_chars_tokens t, h.areWritten.tokens_flatMap_chars]

/-- A term is read from its own text. -/
theorem ofTokens?_tokens_chars {t : Term} (h : t.IsLexical) :
    ofTokens? (Formula.tokens t.chars) = some t := by
  rw [h.tokens_chars]
  exact (h.isOneOperand.climbed .sum).ofTokens?

end IsLexical

end Term

namespace Formula

theorem isLexical_of_tokens {cs : List Char} {t : Term} (h : Term.ofTokens? (tokens cs) = some t) :
    t.IsLexical :=
  Term.isLexical_of_ofTokens? (Token.isLexical_withProducts (Token.isLexical_ofChars cs)) h

/-- **Bracketing is stable.** A text that can be bracketed is bracketed into one from which the same
term is read, and so into one that is bracketed into itself. -/
theorem parenthesize_parenthesize {text : String} {t : Term}
    (h : Term.ofTokens? (tokens text.toList) = some t) :
    Term.ofTokens? (tokens (parenthesize text).toList) = some t ∧
      parenthesize (parenthesize text) = parenthesize text := by
  have hchars : (parenthesize text).toList = t.chars := by
    rw [parenthesize, String.toList_ofList, bracketed, h]
  have hagain : Term.ofTokens? (tokens (parenthesize text).toList) = some t := by
    rw [hchars]
    exact (isLexical_of_tokens h).ofTokens?_tokens_chars
  refine ⟨hagain, ?_⟩
  rw [parenthesize, bracketed, hagain]
  show String.ofList t.chars = _
  rw [← hchars, String.ofList_toList]

/-- A sign, an unsaid product, a number with a comma between the arguments of a call, and a plus
sign between parentheses that are not needed. -/
theorem parenthesize_parenthesize_call :
    let text := "-2x^log(1,234, (+y))"
    let t := Term.binary .times (.neg (.number ['2']))
      (.binary .power (.letter 'x') (.call .log [.number "1,234".toList, .letter 'y']))
    Term.ofTokens? (tokens text.toList) = some t ∧
      parenthesize text = "((-2)*(x^log(1,234, y)))" ∧
      Term.ofTokens? (tokens (parenthesize text).toList) = some t ∧
      parenthesize (parenthesize text) = parenthesize text := by
  intro text t
  have htokens : tokens text.toList = [.operator .minus, .number ['2'], .operator .times,
      .letter 'x', .operator .power, .function .log, .openParen, .number "1,234".toList, .comma,
      .openParen, .operator .plus, .letter 'y', .closeParen, .closeParen] := by
    rw [tokens_eq]
    decide
  have hy : IsOneOperand (.openParen :: [.operator .plus, .letter 'y'] ++ [.closeParen])
      (.letter 'y') :=
    isOneOperand_group (isClimbed_sum_of_product
      (isClimbed_product_of_signed (isClimbed_plus ((isOneOperand_letter 'y').climbed .signed))))
  have hcall := isOneOperand_call₂ .log
    ((isOneOperand_number "1,234".toList).climbed .sum) (hy.climbed .sum)
  have hpower := isClimbed_power (isOneOperand_letter 'x') (hcall.climbed .signed)
  have hneg := isClimbed_minus ((isOneOperand_number ['2']).climbed .signed)
  have hproduct : IsClimbed .product (tokens text.toList) t := by
    rw [htokens]
    exact isClimbed_left .signed rfl rfl rfl (by decide) (by decide)
      (isClimbed_product_of_signed hneg) hpower
  have ht := (isClimbed_sum_of_product hproduct).ofTokens?
  have hchars : parenthesize text = "((-2)*(x^log(1,234, y)))" := by
    rw [parenthesize, bracketed, ht]
    rfl
  exact ⟨ht, hchars, parenthesize_parenthesize ht⟩

end Formula

end SymbolicCalculus
