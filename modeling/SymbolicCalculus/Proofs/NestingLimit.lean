import SymbolicCalculus.Binary64.Text
import SymbolicCalculus.Proofs.ErrorPositions

/-!
# The limit on nesting

The limit decides whether a text is read and never how (`Formula.parse_of_le`): a run that does not
end at the limit goes the same way under every larger one, whatever it ends with, and a run that
does end there has come upon groups that are nested deeper (`Nesting.IsNested`). Both are carried
through a run together as one relation between the two results (`Formula.OnlyRejects`), which every
step of the parser keeps.

In the other direction, a text in which groups are nested deeper than the limit is not read. Each of
these groups stands after one more open parenthesis, and a derived text never has more of them open
than the grammar allows (`Formula.Derives.mostOpen_le`).
-/

namespace SymbolicCalculus

open Nesting (Balanced IsGroupBetween Separated)

namespace Nesting

/-- Groups and arguments of calls are nested so many deep in a text, each within the one before. -/
inductive IsNested : Nat → List Char → Prop
  | zero (cs : List Char) : IsNested 0 cs
  | succ {n : Nat} {before cs after : List Char} :
    IsGroupBetween before cs after → before ≠ [] → IsNested n cs →
    IsNested (n + 1) (before ++ (cs ++ after))

variable {n depth : Nat} {before cs ds after : List Char}

theorem IsGroupBetween.prepend (lead : List Char) (h : IsGroupBetween before cs after)
    (hne : before ≠ []) : IsGroupBetween (lead ++ before) cs after := by
  cases h with
  | whole => contradiction
  | parentheses before after hinside =>
    rw [← List.append_assoc]
    exact .parentheses (lead ++ before) after hinside
  | argument before after f hblanks hinside hspans =>
    rw [← List.append_assoc]
    exact .argument (lead ++ before) after f hblanks hinside hspans

theorem IsNested.prepend (lead : List Char) (h : IsNested n cs) : IsNested n (lead ++ cs) := by
  cases h with
  | zero => exact .zero _
  | succ hgroup hne hinner =>
    rw [← List.append_assoc]
    exact .succ (hgroup.prepend lead hne) (List.append_ne_nil_of_right_ne_nil lead hne) hinner

theorem IsNested.parentheses {inside : List Char} (after : List Char) (hinside : Balanced inside)
    (h : IsNested n inside) : IsNested (n + 1) ('(' :: (inside ++ ')' :: after)) :=
  .succ (.parentheses [] after hinside) (List.cons_ne_nil _ _) h

theorem IsNested.argument {f : Builtin} {blanks inside span : List Char} (after : List Char)
    (hblanks : blanks.all Text.isBlank) (hinside : Balanced inside) (hspan : span ∈ spans inside)
    (h : IsNested n span) :
    IsNested (n + 1) (f.letters ++ (blanks ++ '(' :: (inside ++ ')' :: after))) := by
  obtain ⟨front, back, hspans⟩ := List.append_of_mem hspan
  have hinside' : inside = front.flatMap (· ++ [',']) ++ (span ++ back.flatMap (',' :: ·)) :=
    Separated.eq_append (hspans ▸ separated_splitArguments 0 inside)
  have hnested := IsNested.succ (.argument [] after f hblanks hinside hspans)
    (List.append_ne_nil_of_right_ne_nil _ (List.append_ne_nil_of_right_ne_nil _
      (List.append_ne_nil_of_right_ne_nil _ (List.cons_ne_nil _ _)))) h
  rw [hinside']
  simpa using hnested

/-! ## Open parentheses -/

/-- The most parentheses that are open at one point of a text, where so many are before it. -/
def mostOpen (depth : Nat) : List Char → Nat
  | [] => depth
  | c :: cs => max depth (mostOpen (depthAfter depth c) cs)

theorem le_mostOpen (depth : Nat) (cs : List Char) : depth ≤ mostOpen depth cs := by
  cases cs with
  | nil => exact Nat.le_refl depth
  | cons c cs => exact Nat.le_max_left _ _

theorem mostOpen_plain {c : Char} (hopen : c ≠ '(') (hclose : c ≠ ')') (depth : Nat)
    (cs : List Char) : mostOpen depth (c :: cs) = mostOpen depth cs := by
  rw [mostOpen, depthAfter, if_neg hopen, if_neg hclose, max_eq_right (le_mostOpen depth cs)]

theorem mostOpen_open (depth : Nat) (cs : List Char) :
    mostOpen depth ('(' :: cs) = mostOpen (depth + 1) cs := by
  have hle : depth ≤ mostOpen (depth + 1) cs :=
    (Nat.le_succ depth).trans (le_mostOpen (depth + 1) cs)
  rw [mostOpen, depthAfter, if_pos rfl, max_eq_right hle]

theorem mostOpen_close (depth : Nat) (cs : List Char) :
    mostOpen (depth + 1) (')' :: cs) = max (depth + 1) (mostOpen depth cs) :=
  rfl

theorem mostOpen_mono {depth depth' : Nat} (h : depth ≤ depth') (cs : List Char) :
    mostOpen depth cs ≤ mostOpen depth' cs := by
  induction cs generalizing depth depth' with
  | nil => exact h
  | cons c cs ih =>
    have hafter : depthAfter depth c ≤ depthAfter depth' c := by
      unfold depthAfter
      split_ifs <;> omega
    have hcs := ih hafter
    simp only [mostOpen]
    omega

theorem mostOpen_le_append (depth : Nat) (cs ds : List Char) :
    mostOpen depth cs ≤ mostOpen depth (cs ++ ds) := by
  induction cs generalizing depth with
  | nil => exact le_mostOpen depth ds
  | cons c cs ih =>
    have hcs := ih (depthAfter depth c)
    simp only [List.cons_append, mostOpen]
    omega

theorem mostOpen_zero_le (depth : Nat) (cs ds : List Char) :
    mostOpen 0 ds ≤ mostOpen depth (cs ++ ds) := by
  induction cs generalizing depth with
  | nil => exact mostOpen_mono (Nat.zero_le depth) ds
  | cons c cs ih => exact (ih (depthAfter depth c)).trans (Nat.le_max_right _ _)

/-- After a balanced text, as many parentheses are open as before it. -/
theorem Balanced.mostOpen_append (h : Balanced cs) (depth : Nat) (ds : List Char) :
    mostOpen depth (cs ++ ds) = max (mostOpen depth cs) (mostOpen depth ds) := by
  induction h generalizing depth ds with
  | nil => exact (max_eq_right (le_mostOpen depth ds)).symm
  | cons hopen hclose _ ih =>
    rw [List.cons_append, mostOpen_plain hopen hclose, mostOpen_plain hopen hclose, ih]
  | @group inside after _ _ ih ih' =>
    have heq : '(' :: inside ++ ')' :: after ++ ds =
        '(' :: (inside ++ ')' :: (after ++ ds)) := by simp
    rw [heq, List.cons_append, mostOpen_open, mostOpen_open, ih, ih, mostOpen_close, mostOpen_close,
      ih', max_assoc, max_assoc]

theorem Balanced.mostOpen_eq (h : Balanced cs) (depth : Nat) :
    mostOpen depth cs = depth + mostOpen 0 cs := by
  induction h generalizing depth with
  | nil => rfl
  | cons hopen hclose _ ih => rw [mostOpen_plain hopen hclose, mostOpen_plain hopen hclose, ih]
  | @group inside after hinside _ ih ih' =>
    rw [List.cons_append, mostOpen_open, mostOpen_open, hinside.mostOpen_append,
      hinside.mostOpen_append, mostOpen_close, mostOpen_close, ih, ih 1, ih']
    omega

theorem mostOpen_of_plain (h : ∀ c ∈ cs, c ≠ '(' ∧ c ≠ ')') (depth : Nat) :
    mostOpen depth cs = depth := by
  induction cs with
  | nil => rfl
  | cons c cs ih =>
    obtain ⟨hc, hcs⟩ := List.forall_mem_cons.mp h
    rw [mostOpen_plain hc.1 hc.2, ih hcs]

theorem Balanced.mostOpen_enclosed (h : Balanced cs) :
    mostOpen 0 ('(' :: cs ++ [')']) = mostOpen 0 cs + 1 := by
  rw [List.cons_append, mostOpen_open, h.mostOpen_append, h.mostOpen_eq 1, mostOpen_close, mostOpen]
  omega

/-- Between arguments, no parenthesis is open. -/
theorem Separated.mostOpen_le {inside : List Char} {spans : List (List Char)}
    (h : Separated inside spans) (hspans : ∀ span ∈ spans, Balanced span ∧ mostOpen 0 span ≤ n) :
    mostOpen 0 inside ≤ n := by
  induction h with
  | last cs => exact (hspans cs (List.mem_singleton_self cs)).2
  | comma cs _ _ ih =>
    obtain ⟨⟨hbalanced, hcs⟩, hds⟩ := List.forall_mem_cons.mp hspans
    rw [hbalanced.mostOpen_append, mostOpen_plain (by decide) (by decide)]
    exact Nat.max_le.mpr ⟨hcs, ih hds⟩

/-- A balanced text within a parenthesis. -/
theorem Balanced.mostOpen_lt {front : List Char} (hfront : Balanced front) (hcs : Balanced cs)
    (lead after : List Char) :
    mostOpen 0 cs < mostOpen 0 (lead ++ '(' :: (front ++ (cs ++ after))) := by
  calc mostOpen 0 cs
    _ < mostOpen 1 cs := by rw [hcs.mostOpen_eq 1]; omega
    _ ≤ mostOpen 1 (cs ++ after) := mostOpen_le_append 1 cs after
    _ ≤ mostOpen 1 (front ++ (cs ++ after)) := by
      rw [hfront.mostOpen_append]
      exact Nat.le_max_right _ _
    _ = mostOpen 0 ('(' :: (front ++ (cs ++ after))) := (mostOpen_open 0 _).symm
    _ ≤ _ := mostOpen_zero_le 0 lead _

/-- Balanced arguments with a comma after each. -/
theorem balanced_front {front : List (List Char)} (h : ∀ a ∈ front, Balanced a) :
    Balanced (front.flatMap (· ++ [','])) := by
  induction front with
  | nil => exact .nil
  | cons a front ih =>
    obtain ⟨ha, hfront⟩ := List.forall_mem_cons.mp h
    exact (ha.append (.cons (by decide) (by decide) .nil)).append (ih hfront)

theorem IsGroupBetween.mostOpen_lt (h : IsGroupBetween before cs after) (hne : before ≠ []) :
    mostOpen 0 cs < mostOpen 0 (before ++ (cs ++ after)) := by
  cases h with
  | whole => contradiction
  | parentheses before after hinside =>
    have hlt := Balanced.nil.mostOpen_lt hinside before (')' :: after)
    simpa using hlt
  | @argument before after f blanks inside _ front back hblanks hinside hspans =>
    have hmem (a : List Char) (ha : a ∈ front ++ cs :: back) : Balanced a :=
      balanced_of_mem_spans hinside a (hspans ▸ ha)
    have hfront : Balanced (front.flatMap (· ++ [','])) :=
      balanced_front fun a ha => hmem a (List.mem_append_left _ ha)
    have hspan := hmem cs (List.mem_append_right front List.mem_cons_self)
    have hlt := hfront.mostOpen_lt hspan (before ++ (f.letters ++ blanks))
      (back.flatMap (',' :: ·) ++ ')' :: after)
    simpa using hlt

/-- Each group that is nested in another one stands after one more open parenthesis. -/
theorem IsNested.le_mostOpen (h : IsNested n cs) : n ≤ mostOpen 0 cs := by
  induction h with
  | zero cs => exact Nat.zero_le _
  | succ hgroup hne _ ih => exact ih.trans_lt (hgroup.mostOpen_lt hne)

end Nesting

/-! ## Two runs beside each other -/

/-- The result of a run beside that of a run with a larger limit on nesting: the run ends at its own
limit, and so the text is nested, or the limits make no difference. -/
def OnlyRejects {β : Type} (limit : Nat) (nested : Prop) (r r' : Except ParseError β) : Prop :=
  r = .error (.nestingTooDeep limit) ∧ nested ∨
    (∀ l, r ≠ .error (.nestingTooDeep l)) ∧ r' = r

namespace OnlyRejects

variable {β γ : Type} {limit : Nat} {nested nested' : Prop} {r r' : Except ParseError β}

theorem of_ne (h : ∀ l, r ≠ .error (.nestingTooDeep l)) : OnlyRejects limit nested r r :=
  .inr ⟨h, rfl⟩

theorem of_ok (b : β) : OnlyRejects limit nested (.ok b) (.ok b) :=
  .of_ne (by simp)

theorem imp (h : OnlyRejects limit nested r r') (hnested : nested → nested') :
    OnlyRejects limit nested' r r' :=
  Or.imp_left (And.imp_right hnested) h

theorem bind {f f' : β → Except ParseError γ} (h : OnlyRejects limit nested r r')
    (hf : ∀ b, OnlyRejects limit nested (f b) (f' b)) :
    OnlyRejects limit nested (r >>= f) (r' >>= f') := by
  obtain ⟨hr, hnested⟩ | ⟨hne, hr⟩ := h
  · rw [hr]
    exact .inl ⟨rfl, hnested⟩
  · rw [hr]
    cases r with
    | ok b => exact hf b
    | error err => exact .of_ne fun l hl => hne l (congrArg _ (Except.error.inj hl))

theorem eq_ok {b : β} (h : OnlyRejects limit nested (.ok b) r') : r' = .ok b := by
  obtain ⟨hr, -⟩ | ⟨-, hr⟩ := h
  · contradiction
  · exact hr

theorem eq_error {err : ParseError} (h : OnlyRejects limit nested (.error err) r') :
    err = .nestingTooDeep limit ∧ nested ∨
      (∀ l, err ≠ .nestingTooDeep l) ∧ r' = .error err := by
  obtain ⟨hr, hnested⟩ | ⟨hne, hr⟩ := h
  · exact .inl ⟨Except.error.inj hr, hnested⟩
  · exact .inr ⟨fun l hl => hne l (congrArg _ hl), hr⟩

end OnlyRejects

namespace Accumulator

variable {α : Type} {acc : Accumulator α} {limit start index : Nat} {nested : Prop}

theorem onlyRejects_operator (op : Operator) :
    OnlyRejects limit nested (acc.operator op index) (acc.operator op index) :=
  .of_ne fun _ h => by
    have herr := (operator_eq_error h).2
    contradiction

theorem onlyRejects_operand (e : Expr α) :
    OnlyRejects limit nested (acc.operand e index) (acc.operand e index) :=
  .of_ne fun _ h => by
    have herr := (operand_eq_error h).2
    contradiction

theorem onlyRejects_finish :
    OnlyRejects limit nested (acc.finish start index) (acc.finish start index) :=
  .of_ne fun _ h => by
    obtain herr | ⟨-, -, herr⟩ := finish_eq_error h
    · contradiction
    · contradiction

end Accumulator

namespace Formula

open Nesting (IsNested mostOpen mostOpen_plain mostOpen_of_plain)

variable {α : Type} [Numeral α]

/-- A derived text never has more parentheses open than the grammar allows. -/
theorem Derives.mostOpen_le {piece : Piece} {n : Nat} {cs : List Char} {e : Expr α}
    (h : Derives piece n cs e) : mostOpen 0 cs ≤ n := by
  induction h with
  | operand _ ih => exact ih
  | operator op hcs _ ihcs ihds =>
    rw [hcs.balanced.mostOpen_append, mostOpen_plain op.plain_symbol.1 op.plain_symbol.2.1]
    exact Nat.max_le.mpr ⟨ihcs, ihds⟩
  | blankAfter hc hcs ih =>
    have hplain := Text.plain_of_isBlank hc
    rw [hcs.balanced.mostOpen_append, mostOpen_plain hplain.1 hplain.2.1]
    exact Nat.max_le.mpr ⟨ih, Nat.zero_le _⟩
  | blankBefore hc _ ih =>
    have hplain := Text.plain_of_isBlank hc
    rwa [mostOpen_plain hplain.1 hplain.2.1]
  | minus _ ih => rwa [mostOpen_plain (by decide) (by decide)]
  | plus _ ih => rwa [mostOpen_plain (by decide) (by decide)]
  | parentheses hcs ih =>
    rw [hcs.balanced.mostOpen_enclosed]
    exact Nat.succ_le_succ ih
  | @call n f blanks inside arguments _ hblanks harguments hseparated _ ih =>
    have hspans : ∀ span ∈ arguments.map Prod.fst, Balanced span ∧ mostOpen 0 span ≤ n :=
      List.forall_mem_map.mpr fun x hx => ⟨(harguments x hx).balanced, ih x hx⟩
    have hinside : Balanced inside := hseparated.balanced fun span hspan => (hspans span hspan).1
    have hname : mostOpen 0 (f.letters ++ blanks) = 0 :=
      mostOpen_of_plain (fun c hc => (plain_name f hblanks c hc).imp_right And.left) 0
    rw [(balanced_name f hblanks).mostOpen_append, hname, hinside.mostOpen_enclosed]
    exact Nat.max_le.mpr ⟨Nat.zero_le _, Nat.succ_le_succ (hseparated.mostOpen_le hspans)⟩
  | number hdigits _ =>
    refine (mostOpen_of_plain (fun c hc => ?_) 0).trans_le (Nat.zero_le _)
    rcases hdigits.mem hc with hd | rfl | rfl
    · exact (Nesting.plain_of_isDigit hd).imp_right And.left
    · decide
    · decide
  | letter hc =>
    have hne := IsWordChar.ne (.inl hc)
    exact (mostOpen_plain hne.1 hne.2.1 0 []).trans_le (Nat.zero_le _)

/-! ## Two runs of the parser -/

section runs

variable {limit limit' n depth start index : Nat} {acc : Accumulator α} {cs : List Char}

variable (α) in
/-- The limits do no more than reject groups that are shorter and one level deeper. -/
def RejectsGroups (limit limit' depth n length : Nat) : Prop :=
  ∀ (start : Nat) ⦃cs : List Char⦄, cs.length < length →
    OnlyRejects limit (IsNested n cs) (group (α := α) limit (depth + 1) start cs)
      (group limit' (depth + 1) start cs)

theorem onlyRejects_arguments (start : Nat) {spans : List (List Char)} {length : Nat}
    (ih : RejectsGroups α limit limit' depth n length)
    (hspans : ∀ span ∈ spans, span.length < length) :
    OnlyRejects limit (∃ span ∈ spans, IsNested n span)
      (arguments (α := α) limit (depth + 1) start spans)
      (arguments limit' (depth + 1) start spans) := by
  induction spans generalizing start with
  | nil =>
    rw [arguments, arguments]
    exact .of_ok []
  | cons span others ihspans =>
    obtain ⟨hspan, hothers⟩ := List.forall_mem_cons.mp hspans
    rw [arguments, arguments]
    have hfirst := (ih start hspan).imp fun h =>
      (⟨span, List.mem_cons_self, h⟩ : ∃ a ∈ span :: others, IsNested n a)
    refine hfirst.bind fun e => ?_
    refine ((ihspans _ hothers).imp fun h => ?_).bind fun es => .of_ok (e :: es)
    obtain ⟨a, ha, h⟩ := h
    exact ⟨a, List.mem_cons_of_mem span ha, h⟩

theorem length_of_parentheses {rest inside after : List Char}
    (hsplit : Nesting.splitClosing? 0 rest = some (inside, after)) :
    inside.length < ('(' :: rest).length := by
  have hinside := Nesting.length_of_splitClosing? hsplit
  rw [List.length_cons]
  omega

/-- The arguments of a call are shorter than the text that the call starts. -/
theorem length_of_mem_spans {c : Char} {rest afterName inside after : List Char} {f : Builtin}
    (hcall : Builtin.called? (c :: rest) = some (f, afterName))
    (hsplit : Nesting.splitClosing? 0 ((Text.skipBlanks afterName).drop 1) = some (inside, after))
    {span : List Char} (hspan : span ∈ Nesting.spans inside) :
    span.length < (c :: rest).length := by
  have hinside := length_of_called_group hcall hsplit
  have hextent := Nesting.extent_spans inside
  have hlt := Nesting.length_lt_extent hspan
  omega

/-- An operand that is found is found under a larger limit, too. -/
theorem OperandAt.of_rejectsGroups {e : Expr α} {index' : Nat} {after : List Char}
    (ih : RejectsGroups α limit limit' depth n cs.length)
    (h : OperandAt limit depth index cs e index' after) :
    OperandAt limit' depth index cs e index' after := by
  cases h with
  | group hsplit hinside =>
    have hgroup := ih (index + 1) (length_of_parentheses hsplit)
    rw [hinside] at hgroup
    exact .group hsplit hgroup.eq_ok
  | letter hc hcall => exact .letter hc hcall
  | @call _ _ _ _ _ _ parenthesis _ _ hc hcall hparenthesis hsplit hes he =>
    have harguments := onlyRejects_arguments (parenthesis + 1) ih fun a ha =>
      length_of_mem_spans hcall hsplit ha
    rw [hes] at harguments
    exact .call hc hcall hparenthesis hsplit harguments.eq_ok he
  | number hc hliteral hv => exact .number hc hliteral hv

/-- What is no operand is none under a larger limit, for the same reason, unless a group within it
is nested too deep. -/
theorem StopsAt.of_rejectsGroups {err : ParseError}
    (ih : RejectsGroups α limit limit' depth n cs.length)
    (h : StopsAt α limit depth index cs err) :
    err = .nestingTooDeep limit ∧ IsNested (n + 1) cs ∨
      (∀ l, err ≠ .nestingTooDeep l) ∧ StopsAt α limit' depth index cs err := by
  cases h with
  | unopened rest => exact .inr ⟨nofun, .unopened rest⟩
  | unclosed hnone => exact .inr ⟨nofun, .unclosed hnone⟩
  | @group _ inside after _ hsplit hinside =>
    have hgroup := ih (index + 1) (length_of_parentheses hsplit)
    rw [hinside] at hgroup
    obtain ⟨rfl, hnested⟩ | ⟨hne, hgroup⟩ := hgroup.eq_error
    · have hbalanced := Nesting.balanced_of_splitClosing? hsplit
      obtain rfl := Nesting.eq_of_splitClosing? hsplit
      exact .inl ⟨rfl, hnested.parentheses after hbalanced⟩
    · exact .inr ⟨hne, .group hsplit hgroup⟩
  | unclosedCall hc hcall hparenthesis hnone =>
    exact .inr ⟨nofun, .unclosedCall hc hcall hparenthesis hnone⟩
  | @arguments _ _ _ _ after _ parenthesis _ hc hcall hparenthesis hsplit hes =>
    have harguments := onlyRejects_arguments (parenthesis + 1) ih fun a ha =>
      length_of_mem_spans hcall hsplit ha
    rw [hes] at harguments
    obtain ⟨rfl, span, hspan, hnested⟩ | ⟨hne, harguments⟩ := harguments.eq_error
    · obtain ⟨blanks, rest, hcs, hblanks, -, hrest⟩ := Builtin.exists_eq_of_called? hcall
      have hbalanced := Nesting.balanced_of_splitClosing? hsplit
      rw [hrest] at hsplit
      obtain rfl := Nesting.eq_of_splitClosing? hsplit
      rw [hcs]
      exact .inl ⟨rfl, hnested.argument after hblanks hbalanced hspan⟩
    · exact .inr ⟨hne, .arguments hc hcall hparenthesis hsplit harguments⟩
  | @arity _ _ _ _ _ _ parenthesis _ hc hcall hparenthesis hsplit hes he =>
    have harguments := onlyRejects_arguments (parenthesis + 1) ih fun a ha =>
      length_of_mem_spans hcall hsplit ha
    rw [hes] at harguments
    exact .inr ⟨nofun, .arity hc hcall hparenthesis hsplit harguments.eq_ok he⟩
  | character hblank hsymbol hopen hclose halpha hliteral =>
    exact .inr ⟨nofun, .character hblank hsymbol hopen hclose halpha hliteral⟩

/-- **A run beside one with a larger limit.** -/
theorem onlyRejects_operands (hle : limit ≤ limit') (hdepth : depth + n = limit) :
    OnlyRejects limit (IsNested (n + 1) cs) (operands (α := α) limit depth start acc index cs)
      (operands limit' depth start acc index cs) := by
  -- The induction is on the length, since a group within an operand is no part of the list.
  induction hlength : cs.length using Nat.strong_induction_on
    generalizing cs depth n start acc index with
  | h length ih =>
    subst hlength
    have hgroups : RejectsGroups α limit limit' depth n cs.length := by
      intro start inside hlt
      rw [group, group]
      cases n with
      | zero =>
        rw [if_pos (by omega)]
        exact .inl ⟨rfl, .zero inside⟩
      | succ n =>
        rw [if_neg (by omega), if_neg (by omega)]
        exact ih _ hlt (by omega) rfl
    cases cs with
    | nil =>
      rw [operands_nil, operands_nil]
      exact acc.onlyRejects_finish
    | cons c rest =>
      have hnext (lead : List Char) {rest' : List Char} {acc' : Accumulator α} {index' : Nat}
          (hcs : c :: rest = lead ++ rest') (hlt : rest'.length < (c :: rest).length) :
          OnlyRejects limit (IsNested (n + 1) (c :: rest))
            (operands (α := α) limit depth start acc' index' rest')
            (operands limit' depth start acc' index' rest') := by
        rw [hcs]
        exact (ih _ hlt hdepth rfl).imp (Nesting.IsNested.prepend lead)
      obtain hc | ⟨op, rfl⟩ | ⟨e, index', after, hat⟩ | ⟨err, hstops⟩ :=
        step_cases (α := α) limit depth index c rest
      · rw [operands_blank hc, operands_blank hc]
        exact hnext [c] rfl (Nat.lt_succ_self _)
      · rw [operands_operator, operands_operator]
        exact (acc.onlyRejects_operator op).bind fun acc' =>
          hnext [op.symbol] rfl (Nat.lt_succ_self _)
      · obtain ⟨d, right, hcs, -⟩ := hat.exists_eq_append
        rw [hat.operands, (hat.of_rejectsGroups hgroups).operands]
        exact (acc.onlyRejects_operand e).bind fun acc' => hnext (d :: right) hcs hat.length_lt
      · rw [hstops.operands]
        obtain ⟨rfl, hnested⟩ | ⟨hne, hstops'⟩ := hstops.of_rejectsGroups hgroups
        · exact .inl ⟨rfl, hnested⟩
        · rw [hstops'.operands]
          exact .of_ne fun l hl => hne l (Except.error.inj hl)

end runs

/-- **The limit on nesting only rejects.** Under a larger limit, a text has the result that it has
under a smaller one, be it an expression or an error, unless it is rejected for its nesting. Then
the error names the smaller limit, and there are groups or arguments in the text that are nested
deeper than that. A text with such groups is never read. -/
theorem parse_of_le {m n : Nat} (h : m ≤ n) (text : String) :
    ((∀ limit, parse (α := α) m text ≠ .error (.nestingTooDeep limit)) →
      parse (α := α) n text = parse m text) ∧
    (∀ limit, parse (α := α) m text = .error (.nestingTooDeep limit) →
      limit = m ∧ IsNested (m + 1) text.toList) ∧
    (IsNested (m + 1) text.toList → ∀ e : Expr α, parse m text ≠ .ok e) := by
  have hruns : OnlyRejects m (IsNested (m + 1) text.toList) (parse (α := α) m text)
      (parse n text) := by
    rw [parse, parse, parseChars, parseChars, group_eq_operands (Nat.zero_le m),
      group_eq_operands (Nat.zero_le n)]
    exact onlyRejects_operands h (Nat.zero_add m)
  refine ⟨fun hne => ?_, fun limit hlimit => ?_, fun hnested e he => ?_⟩
  · obtain ⟨hm, -⟩ | ⟨-, hn⟩ := hruns
    · exact absurd hm (hne m)
    · exact hn
  · rw [hlimit] at hruns
    obtain ⟨hm, hnested⟩ | ⟨hne, -⟩ := hruns.eq_error
    · exact ⟨ParseError.nestingTooDeep.inj hm, hnested⟩
    · exact absurd rfl (hne limit)
  · have hderives := (parseChars_eq_ok_iff m text.toList e).mp he
    have hle := hnested.le_mostOpen.trans hderives.mostOpen_le
    omega

/-- A group within the argument of a call, which a limit of two reads, as a limit of three does, and
a limit of one rejects. -/
theorem parse_of_le_of_call :
    let text := "sin((x))"
    let e : Expr Binary64 := .call₁ .sine (.param "x")
    2 ≤ 3 ∧ parse 2 text = .ok e ∧ parse 3 text = .ok e ∧
      1 ≤ 2 ∧ IsNested 2 text.toList ∧
      parse (α := Binary64) 1 text = .error (.nestingTooDeep 1) := by
  intro text e
  have htext : text.toList = Builtin.sine.letters ++ ([] ++ '(' :: (['(', 'x', ')'] ++ [')'])) := by
    decide
  have hx : Balanced ['x'] := .cons (by decide) (by decide) .nil
  have hnested : IsNested 2 text.toList := by
    have hgroup : IsNested 1 ['(', 'x', ')'] := .parentheses [] hx (.zero _)
    rw [htext]
    exact .argument [] rfl hx.enclosed List.mem_cons_self hgroup
  have hread : parse 2 text = .ok e := by
    have hletter : Derives .operand 0 ['x'] (.param "x" : Expr Binary64) := .letter rfl
    have harguments : ∀ x ∈ [(['(', 'x', ')'], (.param "x" : Expr Binary64))],
        Derives .group 1 x.1 x.2 :=
      List.forall_mem_singleton.mpr (.operand (.parentheses (.operand hletter)))
    have hcall : Derives .operand 2
        (Builtin.sine.letters ++ [] ++ ('(' :: ['(', 'x', ')'] ++ [')'])) e :=
      .call rfl harguments (.last _) rfl
    rw [parse, parseChars_eq_ok_iff, htext]
    exact .operand hcall
  have hlarger := (parse_of_le (by decide : 2 ≤ 3) text).1 fun limit h => by
    have hne := hread.symm.trans h
    contradiction
  obtain ⟨hsame, herror, hrejected⟩ := parse_of_le (α := Binary64) (by decide : 1 ≤ 2) text
  have hdeep : parse (α := Binary64) 1 text = .error (.nestingTooDeep 1) := by
    by_contra hne
    refine hrejected hnested e ((hsame fun limit h => hne ?_).symm.trans hread)
    rwa [(herror limit h).1] at h
  exact ⟨by decide, hread, hlarger.trans hread, by decide, hnested, hdeep⟩

end Formula

end SymbolicCalculus
