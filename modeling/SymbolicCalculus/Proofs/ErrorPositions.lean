import SymbolicCalculus.Binary64.Text
import SymbolicCalculus.Proofs.GroupParsing

/-!
# Errors point at what is wrong

A position in an error is the start or the end of a group of the text, or the start of a word in it
(`ParseError.IsAt`), and so it stands between two characters (`Formula.parse_error_isLocated`).
Groups within the text are cut out of it between matched parentheses, so only in the text as a whole
can a parenthesis be without its counterpart.

A run over a group goes on while the text it has passed over is the start of one
(`Formula.HasScanned`). Where it stops (`Formula.StopsAt.isLocatedIn`) or cannot take what comes
next, the error names that place, and from the groups it goes on to the whole text by induction
(`Formula.HasScanned.isLocatedIn`).
-/

namespace SymbolicCalculus

open Nesting (Balanced Separated byteLength)

/-! ## Groups of a text -/

namespace Nesting

/-- A group of a text, with the text before it and after it: the whole text, the text between two
parentheses, or an argument of a call. -/
inductive IsGroupBetween : List Char → List Char → List Char → Prop
  | whole (cs : List Char) : IsGroupBetween [] cs []
  | parentheses (before after : List Char) {inside : List Char} :
    Balanced inside → IsGroupBetween (before ++ ['(']) inside (')' :: after)
  | argument (before after : List Char) (f : Builtin) {blanks inside span : List Char}
    {front back : List (List Char)} :
    blanks.all Text.isBlank → Balanced inside → spans inside = front ++ span :: back →
    IsGroupBetween (before ++ (f.letters ++ (blanks ++ '(' :: front.flatMap (· ++ [',']))))
      span (back.flatMap (',' :: ·) ++ ')' :: after)

/-- Within a text, a group is balanced. -/
theorem IsGroupBetween.eq_nil_or_balanced {before cs after : List Char}
    (h : IsGroupBetween before cs after) : (before = [] ∧ after = []) ∨ Balanced cs := by
  cases h with
  | whole => exact .inl ⟨rfl, rfl⟩
  | parentheses _ _ hinside => exact .inr hinside
  | argument _ _ _ _ hinside hspans =>
    refine .inr (balanced_of_mem_spans hinside _ ?_)
    rw [hspans]
    exact List.mem_append_right _ List.mem_cons_self

theorem Separated.eq_cons {inside span : List Char} {back : List (List Char)}
    (h : Separated inside (span :: back)) : inside = span ++ back.flatMap (',' :: ·) := by
  generalize hspans : span :: back = spans at h
  induction h generalizing span back with
  | last cs =>
    obtain ⟨rfl, rfl⟩ := List.cons.inj hspans
    exact (List.append_nil _).symm
  | @comma cs ds others _ hothers ih =>
    obtain ⟨rfl, rfl⟩ := List.cons.inj hspans
    cases back with
    | nil => nomatch hothers
    | cons next back => rw [ih rfl, List.flatMap_cons, List.cons_append]

/-- A text between parentheses is its arguments with commas between them. -/
theorem Separated.eq_append {inside span : List Char} {front back : List (List Char)}
    (h : Separated inside (front ++ span :: back)) :
    inside = front.flatMap (· ++ [',']) ++ (span ++ back.flatMap (',' :: ·)) := by
  induction front generalizing inside with
  | nil => exact h.eq_cons
  | cons a front ih =>
    rw [List.cons_append] at h
    generalize hspans : front ++ span :: back = spans at h ih
    cases h with
    | last => simp at hspans
    | comma _ _ hrest => simp [ih hrest]

end Nesting

/-! ## Places of errors -/

namespace ParseError

/-- The position that an error names. -/
def index? : ParseError → Option Nat
  | unbalancedParenthesis index | unexpectedCharacter _ index | emptyGroup index
  | missingOperand index | missingOperator index | invalidNumber _ index
  | wrongArity _ _ index => some index
  | nestingTooDeep _ => none

variable (α : Type) [Numeral α]

/-- What an error says is so where the text `before` is followed by the text `after`. -/
def IsAt (before after : List Char) : ParseError → Prop
  | unbalancedParenthesis _ =>
    (∃ rest, after = '(' :: rest ∧
      ∀ inside closed, rest = inside ++ ')' :: closed → ¬ Balanced inside) ∨
    ∃ rest, after = ')' :: rest ∧ Balanced before
  | unexpectedCharacter c _ => ∃ rest, after = c :: rest
  | emptyGroup _ =>
    ∃ cs rest, after = cs ++ rest ∧ Nesting.IsGroupBetween before cs rest ∧
      ∀ c ∈ cs, Text.isBlank c = true ∨ c = '+'
  | missingOperand _ =>
    (∃ c rest, after = c :: rest ∧ c ∈ ['*', '/', '^']) ∨
    ∃ lead cs, before = lead ++ cs ∧ Nesting.IsGroupBetween lead cs after
  | missingOperator _ =>
    ∃ lead left c right more rest, before = lead ++ left ∧ after = c :: right ++ (more ++ rest) ∧
      Nesting.IsGroupBetween lead (left ++ (c :: right ++ more)) rest ∧ (c = '(' ∨ IsWordChar c) ∧
      ∃ (n : Nat) (a b : Expr α), Formula.Derives .group n left a ∧
        Formula.Derives .operand n (c :: right) b
  | wrongArity f found _ =>
    ∃ blanks inside rest, after = f.letters ++ (blanks ++ '(' :: (inside ++ ')' :: rest)) ∧
      blanks.all Text.isBlank ∧ Balanced inside ∧ (Nesting.spans inside).length = found ∧
      f.accepts found = false
  | invalidNumber _ _ => False
  | nestingTooDeep _ => False

/-- If an error names a position of the text, then what it says is so there. -/
def IsLocatedIn (cs : List Char) (err : ParseError) : Prop :=
  ∀ index, err.index? = some index →
    ∃ before after, cs = before ++ after ∧ byteLength before = index ∧ err.IsAt α before after

variable {α}

theorem IsAt.isLocatedIn {before after : List Char} {err : ParseError}
    (h : err.IsAt α before after) (hindex : err.index? = some (byteLength before)) :
    err.IsLocatedIn α (before ++ after) := by
  intro index hi
  exact ⟨before, after, rfl, Option.some.inj (hindex.symm.trans hi), h⟩

theorem isLocatedIn_nestingTooDeep (limit : Nat) (cs : List Char) :
    (nestingTooDeep limit).IsLocatedIn α cs :=
  nofun

end ParseError

/-! ## What an accumulator rejects -/

namespace Accumulator

variable {α : Type} {acc : Accumulator α} {op : Operator} {e : Expr α} {index : Nat}
  {err : ParseError}

theorem operator_eq_error (h : acc.operator op index = .error err) :
    op.symbol ∈ ['*', '/', '^'] ∧ err = .missingOperand index := by
  unfold operator at h
  split at h
  · split at h
    · contradiction
    · contradiction
    · next hminus hplus =>
      refine ⟨?_, (Except.error.inj h).symm⟩
      cases op with
      | plus => exact absurd rfl hplus
      | minus => exact absurd rfl hminus
      | times | divide | power => decide
  · contradiction

theorem operand_eq_error (h : acc.operand e index = .error err) :
    acc.expectsOperand = false ∧ err = .missingOperator index := by
  unfold operand at h
  dsimp only at h
  split at h
  · contradiction
  · contradiction
  · next left hleft hpending =>
    refine ⟨?_, (Except.error.inj h).symm⟩
    simp [expectsOperand, hleft, hpending]

theorem finish_eq_error {start stop : Nat} (h : acc.finish start stop = .error err) :
    err = .missingOperand stop ∨
      acc.left? = none ∧ acc.negations = 0 ∧ err = .emptyGroup start := by
  unfold finish at h
  split at h
  · exact .inl (Except.error.inj h).symm
  · next hnone =>
    split at h
    · contradiction
    · next hleft =>
      simp only [gt_iff_lt, Bool.or_eq_true, decide_eq_true_eq, not_or] at hnone
      exact .inr ⟨hleft, by omega, (Except.error.inj h).symm⟩

end Accumulator

namespace Formula

open Nesting (IsGroupBetween)

variable {α : Type} [Numeral α] {limit depth start index : Nat} {acc : Accumulator α}

/-! ## What a run has passed over -/

/-- What is kept of the part of a group that a run has passed over: what it says so far, that its
parentheses are matched, and that it is blanks and plus signs before the first operand and the minus
signs of that. -/
structure HasScanned (n : Nat) (acc : Accumulator α) (seen : List Char) : Prop where
  read : HasRead n acc seen
  balanced : Balanced seen
  signs : acc.left? = none → acc.negations = 0 → ∀ c ∈ seen, Text.isBlank c = true ∨ c = '+'

namespace HasScanned

variable {n : Nat} {acc' : Accumulator α} {seen : List Char}

theorem nil : HasScanned n ({} : Accumulator α) [] :=
  ⟨.start, .nil, fun _ _ => List.forall_mem_nil _⟩

theorem blank {c : Char} (h : HasScanned n acc seen) (hc : Text.isBlank c = true) :
    HasScanned n acc (seen ++ [c]) where
  read := h.read.blank hc
  balanced := by
    have hplain := Text.plain_of_isBlank hc
    exact h.balanced.append (.cons hplain.1 hplain.2.1 .nil)
  signs hleft hnegations :=
    List.forall_mem_append.mpr ⟨h.signs hleft hnegations, List.forall_mem_singleton.mpr (.inl hc)⟩

theorem operator {op : Operator} (h : HasScanned n acc seen)
    (hop : acc.operator op index = .ok acc') : HasScanned n acc' (seen ++ [op.symbol]) where
  read := h.read.operator hop
  balanced := h.balanced.append (.cons op.plain_symbol.1 op.plain_symbol.2.1 .nil)
  signs hleft hnegations := by
    obtain ⟨hacc, ⟨-, rfl⟩ | ⟨rfl, rfl⟩⟩ | ⟨hacc, rfl⟩ := Accumulator.operator_eq_ok hop
    · contradiction
    · exact List.forall_mem_append.mpr
        ⟨h.signs hleft hnegations, List.forall_mem_singleton.mpr (.inr rfl)⟩
    · obtain ⟨-, a, ha, -⟩ := h.read.complete hacc
      exact absurd (ha.symm.trans hleft) nofun

theorem operand {ds : List Char} {e : Expr α} (h : HasScanned n acc seen)
    (hds : Derives .operand n ds e) (he : acc.operand e index = .ok acc') :
    HasScanned n acc' (seen ++ ds) where
  read := h.read.operand hds he
  balanced := h.balanced.append hds.balanced
  signs hleft := by
    obtain ⟨-, rfl⟩ := Accumulator.operand_eq_ok_iff.mp he
    contradiction

end HasScanned

/-! ## Groups that fail -/

theorem group_eq_error {cs : List Char} {err : ParseError}
    (h : group (α := α) limit depth start cs = .error err) :
    err = .nestingTooDeep limit ∨
      depth ≤ limit ∧ operands (α := α) limit depth start {} start cs = .error err := by
  rw [group] at h
  split at h
  · exact .inl (Except.error.inj h).symm
  · exact .inr ⟨by omega, h⟩

/-- One of the arguments fails where the text that starts with it does. -/
theorem exists_of_arguments_eq_error {spans : List (List Char)} {err : ParseError}
    (h : arguments (α := α) limit depth start spans = .error err) :
    ∃ front span back, spans = front ++ span :: back ∧
      group (α := α) limit depth (start + byteLength (front.flatMap (· ++ [',']))) span =
        .error err := by
  induction spans generalizing start with
  | nil =>
    rw [arguments] at h
    contradiction
  | cons span others ih =>
    rw [arguments] at h
    obtain herr | ⟨e, -, h⟩ := bind_eq_error.mp h
    · exact ⟨[], span, others, rfl, herr⟩
    obtain herr | ⟨es, -, h⟩ := bind_eq_error.mp h
    · obtain ⟨front, span', back, rfl, hgroup⟩ := ih herr
      refine ⟨span :: front, span', back, rfl, ?_⟩
      have hcomma : ','.utf8Size = 1 := rfl
      have hstart : start + byteLength ((span :: front).flatMap (· ++ [','])) =
          start + byteLength span + 1 + byteLength (front.flatMap (· ++ [','])) := by
        simp only [List.flatMap_cons, byteLength_append, byteLength_cons, byteLength_nil, hcomma]
        omega
      rwa [hstart]
    · contradiction

/-- The text of an operand starts with a parenthesis or with a word. -/
theorem OperandAt.exists_eq_append {cs after : List Char} {e : Expr α} {index' : Nat}
    (h : OperandAt limit depth index cs e index' after) :
    ∃ c right, cs = c :: right ++ after ∧ index' = index + byteLength (c :: right) ∧
      (c = '(' ∨ IsWordChar c) := by
  cases h with
  | @group rest inside _ _ hsplit _ =>
    have hlength := byteLength_enclosed [] inside
    rw [List.nil_append, byteLength_nil, Nat.zero_add] at hlength
    refine ⟨'(', inside ++ [')'], ?_, ?_, .inl rfl⟩
    · rw [Nesting.eq_of_splitClosing? hsplit]
      simp
    · rw [← List.cons_append, hlength, Nat.add_assoc]
  | @letter c _ hc _ =>
    refine ⟨c, [], rfl, ?_, .inr (.inl hc)⟩
    rw [byteLength_cons, utf8Size_of_isAlpha hc, byteLength_nil]
  | @call c rest _ inside _ f _ _ _ hc hcall hparenthesis hsplit _ _ =>
    obtain ⟨blanks, rest', hname, hblanks, htake, rfl⟩ := Builtin.exists_eq_of_called? hcall
    obtain ⟨c', letters, hletters, -⟩ := f.letters_eq_cons
    rw [htake] at hparenthesis
    have hword : c' :: (letters ++ blanks ++ ('(' :: inside ++ [')'])) =
        f.letters ++ blanks ++ ('(' :: inside ++ [')']) := by
      rw [hletters]
      rfl
    have hcs : c :: rest = c' :: (letters ++ blanks ++ ('(' :: inside ++ [')'])) ++ after := by
      rw [hword, hname, Nesting.eq_of_splitClosing? hsplit]
      simp
    obtain rfl := (List.cons.inj hcs).1
    refine ⟨c, _, hcs, ?_, .inr (.inl hc)⟩
    rw [hword, byteLength_enclosed, byteLength_append, hparenthesis]
    omega
  | @number c rest text _ v hc hliteral _ =>
    obtain ⟨d, text, rfl⟩ := List.exists_cons_of_ne_nil (Literal.ne_nil_of_literal? hliteral)
    have hcs := Literal.append_of_literal? hliteral
    obtain rfl := (List.cons.inj hcs).1
    exact ⟨d, text, hcs.symm, rfl, .inr (.inr hc)⟩

/-- The text of an operand is derived. -/
theorem OperandAt.exists_derives {n : Nat} {cs after : List Char} {e : Expr α} {index' : Nat}
    (hdepth : depth + n = limit) (h : OperandAt limit depth index cs e index' after) :
    ∃ c right, cs = c :: right ++ after ∧ index' = index + byteLength (c :: right) ∧
      (c = '(' ∨ IsWordChar c) ∧ Derives .operand n (c :: right) e := by
  obtain ⟨ds, hds, hderives⟩ := h.derives hdepth fun inside _ {_ _ _ _} hdepth hgroup =>
    HasRead.start.of_operands hdepth (group_eq_ok hgroup).2
  obtain ⟨c, right, hcs, hindex, hc⟩ := h.exists_eq_append
  obtain rfl := List.append_cancel_right (hcs.symm.trans hds)
  exact ⟨c, right, hcs, hindex, hc, hderives⟩

section located

variable {n : Nat} {lead seen cs rest tail : List Char} {err : ParseError}

open ParseError (IsLocatedIn)

/-- The place that a run has come to. -/
theorem isLocatedIn_here (h : err.IsAt α (lead ++ seen) (cs ++ tail))
    (hindex : err.index? = some (byteLength (lead ++ seen))) :
    err.IsLocatedIn α (lead ++ (seen ++ cs ++ tail)) := by
  rw [List.append_assoc, ← List.append_assoc]
  exact h.isLocatedIn hindex

/-- A parenthesis without a counterpart in its group has none in the whole text. -/
theorem isLocatedIn_unopened (hgroup : IsGroupBetween lead (seen ++ ')' :: rest) tail)
    (hseen : Balanced seen) :
    (ParseError.unbalancedParenthesis (byteLength (lead ++ seen))).IsLocatedIn α
      (lead ++ (seen ++ ')' :: rest ++ tail)) := by
  obtain ⟨rfl, rfl⟩ | hbalanced := hgroup.eq_nil_or_balanced
  · exact isLocatedIn_here (.inr ⟨rest ++ [], rfl, hseen⟩) rfl
  · exact absurd (hbalanced.of_append hseen) (Balanced.not_close rest)

theorem isLocatedIn_unclosed (hgroup : IsGroupBetween lead (seen ++ '(' :: rest) tail)
    (hseen : Balanced seen) (hnone : Nesting.splitClosing? 0 rest = none) :
    (ParseError.unbalancedParenthesis (byteLength (lead ++ seen))).IsLocatedIn α
      (lead ++ (seen ++ '(' :: rest ++ tail)) := by
  have hopen : ∀ inside closed, rest = inside ++ ')' :: closed → ¬ Balanced inside := by
    rintro inside closed rfl hinside
    rw [hinside.splitClosing?_zero] at hnone
    contradiction
  obtain ⟨rfl, rfl⟩ | hbalanced := hgroup.eq_nil_or_balanced
  · refine isLocatedIn_here (.inl ⟨rest ++ [], rfl, ?_⟩) rfl
    rwa [List.append_nil]
  · obtain ⟨inside, closed, rfl, hinside, -⟩ := (hbalanced.of_append hseen).eq_of_open
    exact absurd hinside (hopen inside closed rfl)

/-- A parenthesis after the name of a function that is never closed. -/
theorem isLocatedIn_unclosed_call {f : Builtin} {blanks : List Char}
    (hgroup : IsGroupBetween lead (seen ++ (f.letters ++ (blanks ++ '(' :: rest))) tail)
    (hseen : Balanced seen) (hblanks : blanks.all Text.isBlank)
    (hnone : Nesting.splitClosing? 0 rest = none) :
    (ParseError.unbalancedParenthesis
        (byteLength (lead ++ seen) + byteLength f.letters + byteLength blanks)).IsLocatedIn α
      (lead ++ (seen ++ (f.letters ++ (blanks ++ '(' :: rest)) ++ tail)) := by
  have heq : seen ++ (f.letters ++ (blanks ++ '(' :: rest)) =
      seen ++ (f.letters ++ blanks) ++ '(' :: rest := by simp
  have hindex : byteLength (lead ++ seen) + byteLength f.letters + byteLength blanks =
      byteLength (lead ++ (seen ++ (f.letters ++ blanks))) := by
    simp only [byteLength_append]
    omega
  rw [heq] at hgroup ⊢
  rw [hindex]
  exact isLocatedIn_unclosed hgroup (hseen.append (balanced_name f hblanks)) hnone

variable (α) in
/-- Groups that are shorter and one level deeper name the place where they fail. -/
def LocatesGroups (limit depth length : Nat) : Prop :=
  ∀ ⦃lead cs tail : List Char⦄ ⦃err : ParseError⦄, cs.length < length →
    IsGroupBetween lead cs tail →
    group (α := α) limit (depth + 1) (byteLength lead) cs = .error err →
    err.IsLocatedIn α (lead ++ (cs ++ tail))

variable {inside after : List Char} {length : Nat}

theorem isLocatedIn_parentheses (ih : LocatesGroups α limit depth length)
    (hlength : inside.length < length) (hinside : Balanced inside)
    (h : group (α := α) limit (depth + 1) (byteLength (lead ++ seen) + 1) inside = .error err) :
    err.IsLocatedIn α (lead ++ (seen ++ '(' :: (inside ++ ')' :: after) ++ tail)) := by
  have hindex : byteLength (lead ++ seen) + 1 = byteLength (lead ++ seen ++ ['(']) := by
    rw [byteLength_append (lead ++ seen)]
    rfl
  rw [hindex] at h
  have hlocated := ih hlength (.parentheses (lead ++ seen) (after ++ tail) hinside) h
  simpa using hlocated

theorem isLocatedIn_arguments {f : Builtin} {blanks : List Char}
    (ih : LocatesGroups α limit depth length) (hlength : inside.length < length)
    (hblanks : blanks.all Text.isBlank) (hinside : Balanced inside)
    (h : arguments (α := α) limit (depth + 1)
      (byteLength (lead ++ seen) + byteLength f.letters + byteLength blanks + 1)
      (Nesting.spans inside) = .error err) :
    err.IsLocatedIn α
      (lead ++ (seen ++ (f.letters ++ (blanks ++ '(' :: (inside ++ ')' :: after))) ++ tail)) := by
  obtain ⟨front, span, back, hspans, hspan⟩ := exists_of_arguments_eq_error h
  have heq : inside = front.flatMap (· ++ [',']) ++ (span ++ back.flatMap (',' :: ·)) := by
    have hseparated := Nesting.separated_splitArguments 0 inside
    exact Separated.eq_append (hspans ▸ hseparated)
  have hlt : span.length < length := by
    have hextent := Nesting.extent_spans inside
    have := Nesting.length_lt_extent (hspans ▸ List.mem_append_right front List.mem_cons_self :
      span ∈ Nesting.spans inside)
    omega
  have hindex : byteLength (lead ++ seen) + byteLength f.letters + byteLength blanks + 1 +
      byteLength (front.flatMap (· ++ [','])) =
        byteLength (lead ++ seen ++
          (f.letters ++ (blanks ++ '(' :: front.flatMap (· ++ [','])))) := by
    have hopen : '('.utf8Size = 1 := rfl
    simp only [byteLength_append, byteLength_cons, hopen]
    omega
  rw [hindex] at hspan
  have hlocated := ih hlt (.argument (lead ++ seen) (after ++ tail) f hblanks hinside hspans) hspan
  rw [heq]
  simpa using hlocated

/-- **Where a run stops**, it names the place of what it stops at, if the groups within that do. -/
theorem StopsAt.isLocatedIn (hgroup : IsGroupBetween lead (seen ++ cs) tail)
    (hseen : Balanced seen) (ih : LocatesGroups α limit depth cs.length)
    (h : StopsAt α limit depth (byteLength (lead ++ seen)) cs err) :
    err.IsLocatedIn α (lead ++ (seen ++ cs ++ tail)) := by
  cases h with
  | unopened rest => exact isLocatedIn_unopened hgroup hseen
  | unclosed hnone => exact isLocatedIn_unclosed hgroup hseen hnone
  | group hsplit hinside =>
    have hbalanced := Nesting.balanced_of_splitClosing? hsplit
    obtain rfl := Nesting.eq_of_splitClosing? hsplit
    refine isLocatedIn_parentheses ih ?_ hbalanced hinside
    simp only [List.length_cons, List.length_append]
    omega
  | unclosedCall _ hcall hparenthesis hnone =>
    obtain ⟨blanks, rest, hcs, hblanks, htake, rfl⟩ := Builtin.exists_eq_of_called? hcall
    rw [hcs] at hgroup ⊢
    rw [hparenthesis, htake]
    exact isLocatedIn_unclosed_call hgroup hseen hblanks hnone
  | arguments _ hcall hparenthesis hsplit harguments =>
    obtain ⟨blanks, rest, hcs, hblanks, htake, hrest⟩ := Builtin.exists_eq_of_called? hcall
    have hbalanced := Nesting.balanced_of_splitClosing? hsplit
    rw [hrest] at hsplit
    obtain rfl := Nesting.eq_of_splitClosing? hsplit
    rw [hparenthesis, htake] at harguments
    rw [hcs] at ih ⊢
    refine isLocatedIn_arguments ih ?_ hblanks hbalanced harguments
    simp only [List.length_cons, List.length_append]
    omega
  | @arity _ _ _ inside after f _ es _ hcall _ hsplit hes he =>
    obtain ⟨blanks, rest, hcs, hblanks, -, hrest⟩ := Builtin.exists_eq_of_called? hcall
    have hbalanced := Nesting.balanced_of_splitClosing? hsplit
    rw [hrest] at hsplit
    obtain rfl := Nesting.eq_of_splitClosing? hsplit
    obtain ⟨xs, hspans, rfl, -⟩ := groups_of_arguments hes
    have haccepts := Expr.accepted?_isSome f (xs.map Prod.snd)
    rw [he] at haccepts
    rw [hcs]
    refine isLocatedIn_here ⟨blanks, inside, after ++ tail, by simp, hblanks, hbalanced, ?_,
      haccepts.symm⟩ rfl
    rw [← hspans, List.length_map, List.length_map]
  | character => exact isLocatedIn_here ⟨_, rfl⟩ rfl

/-! ## Runs that fail -/

theorem isLocatedIn_finish (hgroup : IsGroupBetween lead seen tail) (hseen : HasScanned n acc seen)
    (h : acc.finish (byteLength lead) (byteLength (lead ++ seen)) = .error err) :
    err.IsLocatedIn α (lead ++ (seen ++ [] ++ tail)) := by
  obtain rfl | ⟨hleft, hnegations, rfl⟩ := Accumulator.finish_eq_error h
  · exact isLocatedIn_here (.inr ⟨lead, seen, rfl, hgroup⟩) rfl
  · have hat : (ParseError.emptyGroup (byteLength lead)).IsAt α lead (seen ++ tail) :=
      ⟨seen, tail, rfl, hgroup, hseen.signs hleft hnegations⟩
    rw [List.append_nil]
    exact hat.isLocatedIn rfl

theorem isLocatedIn_operator {op : Operator}
    (h : acc.operator op (byteLength (lead ++ seen)) = .error err) :
    err.IsLocatedIn α (lead ++ (seen ++ op.symbol :: rest ++ tail)) := by
  obtain ⟨hsymbol, rfl⟩ := Accumulator.operator_eq_error h
  exact isLocatedIn_here (.inl ⟨_, _, rfl, hsymbol⟩) rfl

/-- An operand without an operator before it is a second one in its group. -/
theorem isLocatedIn_operand {e : Expr α} {index' : Nat} (hdepth : depth + n = limit)
    (hgroup : IsGroupBetween lead (seen ++ cs) tail) (hseen : HasScanned n acc seen)
    (hat : OperandAt limit depth (byteLength (lead ++ seen)) cs e index' after)
    (h : acc.operand e (byteLength (lead ++ seen)) = .error err) :
    err.IsLocatedIn α (lead ++ (seen ++ cs ++ tail)) := by
  obtain ⟨hacc, rfl⟩ := Accumulator.operand_eq_error h
  obtain ⟨-, a, -, hleft⟩ := hseen.read.complete hacc
  obtain ⟨c, right, rfl, -, hc, hright⟩ := hat.exists_derives hdepth
  refine isLocatedIn_here ⟨lead, seen, c, right, _, tail, rfl, ?_, hgroup, hc, n, a, _, hleft,
    hright⟩ rfl
  rw [List.append_assoc]

/-- **A run that fails** names the place where it does. -/
theorem HasScanned.isLocatedIn (hdepth : depth + n = limit)
    (hgroup : IsGroupBetween lead (seen ++ cs) tail) (hseen : HasScanned n acc seen)
    (h : operands limit depth (byteLength lead) acc (byteLength (lead ++ seen)) cs = .error err) :
    err.IsLocatedIn α (lead ++ (seen ++ cs ++ tail)) := by
  -- The induction is on the length, since a group within an operand is no part of the list.
  induction hlength : cs.length using Nat.strong_induction_on
    generalizing lead seen cs tail depth n acc err with
  | h length ih =>
    subst hlength
    have hinner : LocatesGroups α limit depth cs.length := by
      intro lead inside tail err hlt hgroup h
      obtain rfl | ⟨hlimit, h⟩ := group_eq_error h
      · exact ParseError.isLocatedIn_nestingTooDeep limit _
      · have hgroup' : IsGroupBetween lead ([] ++ inside) tail := hgroup
        exact ih _ hlt (Nat.add_sub_cancel' hlimit) hgroup' .nil (by rwa [List.append_nil]) rfl
    have hnext (ds : List Char) {rest : List Char} {acc' : Accumulator α} (hcs : cs = ds ++ rest)
        (hlt : rest.length < cs.length) (hseen : HasScanned n acc' (seen ++ ds))
        (h : operands limit depth (byteLength lead) acc' (byteLength (lead ++ seen) + byteLength ds)
          rest = .error err) : err.IsLocatedIn α (lead ++ (seen ++ cs ++ tail)) := by
      have hindex : byteLength (lead ++ seen) + byteLength ds =
          byteLength (lead ++ (seen ++ ds)) := by
        rw [← List.append_assoc, byteLength_append (lead ++ seen)]
      rw [hcs, ← List.append_assoc] at hgroup
      rw [hcs, ← List.append_assoc seen]
      exact ih _ hlt hdepth hgroup hseen (by rwa [← hindex]) rfl
    obtain ⟨rfl, hfinish⟩ | ⟨c, rest, rfl, hc, hrest⟩ | ⟨op, rest, rfl, hop⟩ |
      ⟨a, index', after, hat, hoperand⟩ | hstops := operands_eq_error h
    · rw [List.append_nil] at hgroup
      exact isLocatedIn_finish hgroup hseen hfinish
    · exact hnext [c] rfl (Nat.lt_succ_self _) (hseen.blank hc) hrest
    · obtain hop | ⟨acc', hacc', hrest⟩ := hop
      · exact isLocatedIn_operator hop
      · refine hnext [op.symbol] rfl (Nat.lt_succ_self _) (hseen.operator hacc') ?_
        rwa [byteLength_cons, op.utf8Size_symbol]
    · obtain he | ⟨acc', hacc', hrest⟩ := hoperand
      · exact isLocatedIn_operand hdepth hgroup hseen hat he
      · obtain ⟨c, right, hcs, rfl, -, hds⟩ := hat.exists_derives hdepth
        exact hnext _ hcs hat.length_lt (hseen.operand hds hacc') hrest
    · exact hstops.isLocatedIn hgroup hseen.balanced hinner

end located

/-! ## Texts that are not read -/

theorem isLocatedIn_of_parseChars {maxDepth : Nat} {cs : List Char} {err : ParseError}
    (h : parseChars (α := α) maxDepth cs = .error err) : err.IsLocatedIn α cs := by
  obtain rfl | ⟨hlimit, h⟩ := group_eq_error h
  · exact ParseError.isLocatedIn_nestingTooDeep maxDepth _
  · have hgroup : IsGroupBetween [] ([] ++ cs) [] := .whole cs
    have hlocated := HasScanned.nil.isLocatedIn (Nat.zero_add maxDepth) hgroup h
    simpa using hlocated

theorem utf8ByteSize_ofList (cs : List Char) : (String.ofList cs).utf8ByteSize = byteLength cs := by
  induction cs with
  | nil => rfl
  | cons c cs ih =>
    rw [String.ofList_cons, String.utf8ByteSize_append, String.utf8ByteSize_singleton, ih,
      byteLength_cons]

/-- **An error names a position of the text**, between two characters of it, where what the error
says is so. A text that is read is balanced. -/
theorem parse_error_isLocated (maxDepth : Nat) (text : String) :
    (∀ err, parse (α := α) maxDepth text = .error err →
      ∀ index, err.index? = some index →
        index ≤ text.utf8ByteSize ∧ (String.Pos.Raw.mk index).IsValid text ∧
        ∃ before after, text.toList = before ++ after ∧ byteLength before = index ∧
          err.IsAt α before after) ∧
      ∀ e : Expr α, parse maxDepth text = .ok e → Balanced text.toList := by
  refine ⟨fun err h index hindex => ?_, fun e h => ?_⟩
  · have hlocated : err.IsLocatedIn α text.toList := isLocatedIn_of_parseChars h
    obtain ⟨before, after, htext, rfl, hat⟩ := hlocated index hindex
    have hsplit : text = String.ofList before ++ String.ofList after := by
      rw [← String.ofList_append, ← htext, String.ofList_toList]
    refine ⟨?_, ?_, before, after, htext, rfl, hat⟩
    · rw [hsplit, String.utf8ByteSize_append, utf8ByteSize_ofList]
      exact Nat.le_add_right _ _
    · refine String.Pos.Raw.isValid_iff_exists_append.mpr ⟨_, _, hsplit, ?_⟩
      rw [String.Pos.Raw.ext_iff, String.byteIdx_rawEndPos, utf8ByteSize_ofList]
  · exact ((parseChars_eq_ok_iff maxDepth text.toList e).mp h).balanced

/-- The parenthesis that a blank of two bytes stands before. -/
theorem parse_error_isLocated_of_closing :
    let text := "\u00a0)"
    let err := ParseError.unbalancedParenthesis 2
    parse (α := Binary64) 512 text = .error err ∧
      (2 ≤ text.utf8ByteSize ∧ (String.Pos.Raw.mk 2).IsValid text ∧
        ∃ before after, text.toList = before ++ after ∧ byteLength before = 2 ∧
          err.IsAt Binary64 before after) ∧
      parse (α := Binary64) 512 "(x)" = .ok (.param "x") ∧ Balanced "(x)".toList := by
  intro text err
  have htext : text.toList = ['\u00a0', ')'] := by decide
  have herr : parse (α := Binary64) 512 text = .error err := by
    rw [parse, parseChars, htext, group_eq_operands (Nat.zero_le _), operands_blank (by decide),
      operands]
    rfl
  have hok : parse (α := Binary64) 512 "(x)" = .ok (.param "x") := by
    have hletter : Derives .operand 511 ['x'] (.param "x" : Expr Binary64) := .letter rfl
    exact (parseChars_eq_ok_iff _ _ _).mpr (.operand (.parentheses (.operand hletter)))
  exact ⟨herr, (parse_error_isLocated 512 text).1 err herr 2 rfl, hok,
    (parse_error_isLocated 512 "(x)").2 _ hok⟩

end Formula

end SymbolicCalculus
