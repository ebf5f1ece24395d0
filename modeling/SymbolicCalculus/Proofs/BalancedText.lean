import SymbolicCalculus.Formula.Nesting
import SymbolicCalculus.Proofs.LiteralText

/-!
# Balanced texts

A text in which every parenthesis is matched is passed over as a whole, when the end of a group is
looked for and when the arguments of a call are (`Balanced.splitClosing?`,
`Balanced.splitArguments`). A number is passed over as well, since its commas belong to it.
-/

namespace SymbolicCalculus.Nesting

open Literal (IsLiteral StartsWithoutDigit isGroup)

/-- Every parenthesis in the text is matched. -/
inductive Balanced : List Char → Prop
  | nil : Balanced []
  | cons {c : Char} {cs : List Char} : c ≠ '(' → c ≠ ')' → Balanced cs → Balanced (c :: cs)
  | group {inside after : List Char} :
    Balanced inside → Balanced after → Balanced ('(' :: inside ++ ')' :: after)

namespace Balanced

theorem append {cs ds : List Char} (h : Balanced cs) (h' : Balanced ds) : Balanced (cs ++ ds) := by
  induction h with
  | nil => exact h'
  | cons hopen hclose _ ih => exact cons hopen hclose ih
  | @group inside after hinside _ _ ih =>
    have heq : '(' :: inside ++ ')' :: after ++ ds = '(' :: inside ++ ')' :: (after ++ ds) := by
      simp
    rw [heq]
    exact group hinside ih

theorem of_plain {cs : List Char} (h : ∀ c ∈ cs, c ≠ '(' ∧ c ≠ ')') : Balanced cs := by
  induction cs with
  | nil => exact nil
  | cons c cs ih =>
    obtain ⟨hc, hcs⟩ := List.forall_mem_cons.mp h
    exact cons hc.1 hc.2 (ih hcs)

/-- A text between parentheses. -/
theorem enclosed {cs : List Char} (h : Balanced cs) : Balanced ('(' :: cs ++ [')']) :=
  group h nil

theorem of_cons {c : Char} {cs : List Char} (hc : c ≠ '(') (h : Balanced (c :: cs)) :
    Balanced cs := by
  cases h with
  | cons _ _ h => exact h
  | group => contradiction

theorem not_close (cs : List Char) : ¬ Balanced (')' :: cs) := by
  rintro (_ | ⟨_, hclose, _⟩)
  exact hclose rfl

/-- The group that an opening parenthesis starts. -/
theorem eq_of_open {cs : List Char} (h : Balanced ('(' :: cs)) :
    ∃ inside after, cs = inside ++ ')' :: after ∧ Balanced inside ∧ Balanced after := by
  cases h with
  | cons hopen _ _ => contradiction
  | group hinside hafter => exact ⟨_, _, rfl, hinside, hafter⟩

end Balanced

/-! ## The end of a group -/

theorem splitClosing?_cons {c : Char} (hc : c ≠ ')') (depth : Nat) (cs : List Char) :
    splitClosing? depth (c :: cs) =
      (splitClosing? (depthAfter depth c) cs).map fun (inside, after) => (c :: inside, after) := by
  rw [splitClosing?, if_neg (by simp [hc])]

theorem splitClosing?_close (depth : Nat) (cs : List Char) :
    splitClosing? (depth + 1) (')' :: cs) =
      (splitClosing? depth cs).map fun (inside, after) => (')' :: inside, after) := by
  rw [splitClosing?, if_neg (by simp)]
  rfl

theorem Balanced.splitClosing? {cs : List Char} (h : Balanced cs) (depth : Nat)
    (rest : List Char) :
    Nesting.splitClosing? depth (cs ++ rest) =
      (Nesting.splitClosing? depth rest).map fun (inside, after) => (cs ++ inside, after) := by
  induction h generalizing depth rest with
  | nil => simp
  | @cons c cs hopen hclose _ ih =>
    rw [List.cons_append, splitClosing?_cons hclose, depthAfter, if_neg hopen, if_neg hclose, ih,
      Option.map_map]
    rfl
  | @group inside after _ _ ih ih' =>
    have heq : '(' :: inside ++ ')' :: after ++ rest =
        '(' :: (inside ++ ')' :: (after ++ rest)) := by simp
    rw [heq, splitClosing?_cons (by decide), depthAfter, if_pos rfl, ih, splitClosing?_close, ih',
      Option.map_map, Option.map_map, Option.map_map]
    congr 1
    funext p
    simp

/-- The text between two parentheses is balanced text up to the next parenthesis. -/
theorem Balanced.splitClosing?_zero {cs : List Char} (h : Balanced cs) (rest : List Char) :
    Nesting.splitClosing? 0 (cs ++ ')' :: rest) = some (cs, rest) := by
  rw [h.splitClosing?, Nesting.splitClosing?, if_pos ⟨rfl, rfl⟩, Option.map_some]
  simp only [List.append_nil]

/-- A text has one balanced part at most that a closing parenthesis follows. -/
theorem Balanced.eq_of_append_close {cs ds rest rest' : List Char} (hcs : Balanced cs)
    (hds : Balanced ds) (h : cs ++ ')' :: rest = ds ++ ')' :: rest') : cs = ds ∧ rest = rest' := by
  have hsplit := hcs.splitClosing?_zero rest
  rw [h, hds.splitClosing?_zero] at hsplit
  exact ⟨congrArg Prod.fst (Option.some.inj hsplit.symm),
    congrArg Prod.snd (Option.some.inj hsplit.symm)⟩

/-- What is left of a balanced text after a balanced part of it. -/
theorem Balanced.of_append {cs ds : List Char} (h : Balanced (cs ++ ds)) (hcs : Balanced cs) :
    Balanced ds := by
  induction hcs with
  | nil => exact h
  | cons hopen _ _ ih => exact ih (h.of_cons hopen)
  | @group inside after hinside _ _ ih =>
    rw [List.cons_append, List.cons_append, List.append_assoc] at h
    obtain ⟨inside', after', heq, hinside', hafter'⟩ := h.eq_of_open
    obtain ⟨-, rfl⟩ := hinside.eq_of_append_close hinside' heq
    exact ih hafter'

/-- A parenthesis that is opened in a balanced text is closed in it. -/
theorem Balanced.not_open {cs ds : List Char} (h : Balanced (cs ++ ds)) :
    ¬ Balanced ('(' :: cs) := by
  intro hopen
  obtain ⟨inside, after, rfl, hinside, -⟩ := hopen.eq_of_open
  rw [List.append_assoc] at h
  exact Balanced.not_close _ (h.of_append hinside)

/-- The text closes so many parentheses that are open before it, and it is balanced otherwise. -/
def Closes : Nat → List Char → Prop
  | 0, cs => Balanced cs
  | depth + 1, cs => ∃ inside rest, cs = inside ++ ')' :: rest ∧ Balanced inside ∧ Closes depth rest

theorem Closes.prepend {depth : Nat} {cs ds : List Char} (hcs : Balanced cs)
    (h : Closes depth ds) : Closes depth (cs ++ ds) := by
  cases depth with
  | zero => exact hcs.append h
  | succ depth =>
    obtain ⟨inside, rest, rfl, hinside, hrest⟩ := h
    exact ⟨cs ++ inside, rest, (List.append_assoc ..).symm, hcs.append hinside, hrest⟩

/-- One more parenthesis before a text that closes it. -/
theorem Closes.open {depth : Nat} {cs : List Char} (h : Closes (depth + 1) cs) :
    Closes depth ('(' :: cs) := by
  obtain ⟨inside, rest, rfl, hinside, hrest⟩ := h
  have hgroup := hrest.prepend hinside.enclosed
  rwa [List.cons_append, List.cons_append, List.append_assoc] at hgroup

theorem closes_of_splitClosing? {depth : Nat} {cs inside after : List Char}
    (h : splitClosing? depth cs = some (inside, after)) : Closes depth inside := by
  induction cs generalizing depth inside with
  | nil => contradiction
  | cons c cs ih =>
    rw [Nesting.splitClosing?] at h
    split at h
    · next hc =>
      obtain ⟨rfl, -⟩ : [] = inside ∧ cs = after := by simpa using h
      rw [hc.2]
      exact Balanced.nil
    · next hc =>
      obtain ⟨⟨i, a⟩, hrec, heq⟩ := Option.map_eq_some_iff.mp h
      obtain ⟨rfl, rfl⟩ : c :: i = inside ∧ a = after := by simpa using heq
      have hclosed := ih hrec
      by_cases hopen : c = '('
      · rw [depthAfter, if_pos hopen] at hclosed
        rw [hopen]
        exact hclosed.open
      rw [depthAfter, if_neg hopen] at hclosed
      by_cases hclose : c = ')'
      · obtain ⟨d, rfl⟩ : ∃ d, depth = d + 1 := ⟨depth - 1, by grind⟩
        rw [if_pos hclose] at hclosed
        exact ⟨[], i, by rw [hclose, List.nil_append], .nil, hclosed⟩
      · rw [if_neg hclose] at hclosed
        exact hclosed.prepend (.cons hopen hclose .nil)

/-- The text before the parenthesis that closes a group is balanced. -/
theorem balanced_of_splitClosing? {cs inside after : List Char}
    (h : splitClosing? 0 cs = some (inside, after)) : Balanced inside :=
  closes_of_splitClosing? h

/-! ## The arguments of a call -/

theorem splitArguments_cons {c : Char} {depth : Nat} {cs : List Char}
    (h : c ≠ ',' ∨ depth ≠ 0 ∨ isGroup cs) :
    splitArguments depth (c :: cs) =
      (c :: (splitArguments (depthAfter depth c) cs).1,
        (splitArguments (depthAfter depth c) cs).2) := by
  rw [splitArguments, if_neg (by grind)]

/-- Between parentheses, no comma separates arguments. -/
theorem Balanced.splitArguments {cs : List Char} (h : Balanced cs) (depth : Nat)
    (rest : List Char) :
    Nesting.splitArguments (depth + 1) (cs ++ rest) =
      (cs ++ (Nesting.splitArguments (depth + 1) rest).1,
        (Nesting.splitArguments (depth + 1) rest).2) := by
  induction h generalizing depth rest with
  | nil => rfl
  | @cons c cs hopen hclose _ ih =>
    rw [List.cons_append, splitArguments_cons (.inr (.inl (by omega))), depthAfter, if_neg hopen,
      if_neg hclose, ih]
    rfl
  | @group inside after _ _ ih ih' =>
    have heq : '(' :: inside ++ ')' :: after ++ rest =
        '(' :: (inside ++ ')' :: (after ++ rest)) := by simp
    have hopen : depthAfter (depth + 1) '(' = depth + 1 + 1 := rfl
    have hclose : depthAfter (depth + 1 + 1) ')' = depth + 1 := rfl
    rw [heq, splitArguments_cons (.inl (by decide)), hopen, ih,
      splitArguments_cons (.inl (by decide)), hclose, ih']
    simp

/-- Text with neither parentheses nor commas is part of one argument. -/
theorem splitArguments_plain {cs : List Char} (h : ∀ c ∈ cs, c ≠ '(' ∧ c ≠ ')' ∧ c ≠ ',')
    (depth : Nat) (rest : List Char) :
    splitArguments depth (cs ++ rest) =
      (cs ++ (splitArguments depth rest).1, (splitArguments depth rest).2) := by
  induction cs with
  | nil => rfl
  | cons c cs ih =>
    obtain ⟨⟨hopen, hclose, hcomma⟩, hcs⟩ := List.forall_mem_cons.mp h
    rw [List.cons_append, splitArguments_cons (.inl hcomma), depthAfter,
      if_neg hopen, if_neg hclose, ih hcs]
    rfl

/-- A text between parentheses, after a name or by itself, is part of one argument. -/
theorem Balanced.splitArguments_zero {cs : List Char} (h : Balanced cs) (name : List Char)
    (hname : ∀ c ∈ name, c ≠ '(' ∧ c ≠ ')' ∧ c ≠ ',') (rest : List Char) :
    Nesting.splitArguments 0 (name ++ ('(' :: cs ++ [')']) ++ rest) =
      (name ++ ('(' :: cs ++ [')']) ++ (Nesting.splitArguments 0 rest).1,
        (Nesting.splitArguments 0 rest).2) := by
  have heq : name ++ ('(' :: cs ++ [')']) ++ rest = name ++ '(' :: (cs ++ ')' :: rest) := by simp
  have hopen : depthAfter 0 '(' = 0 + 1 := rfl
  have hclose : depthAfter (0 + 1) ')' = 0 := rfl
  rw [heq, splitArguments_plain hname, splitArguments_cons (.inl (by decide)), hopen,
    h.splitArguments, splitArguments_cons (.inl (by decide)), hclose]
  simp

section spans

variable {cs first : List Char} {back : List (List Char)}

theorem spans_separator (h : isGroup cs = false) : spans (',' :: cs) = [] :: spans cs := by
  rw [spans, splitArguments, if_pos ⟨rfl, rfl, by simp [h]⟩]
  rfl

/-- Any other character belongs to the argument that starts with it. -/
theorem spans_cons {c : Char} (hopen : c ≠ '(') (hclose : c ≠ ')') (h : c ≠ ',' ∨ isGroup cs)
    (hcs : spans cs = first :: back) : spans (c :: cs) = (c :: first) :: back := by
  obtain ⟨rfl, rfl⟩ := List.cons.inj hcs
  rw [spans, splitArguments_cons (h.imp_right .inr), depthAfter, if_neg hopen, if_neg hclose]

theorem spans_enclosed {inside : List Char} (h : Balanced inside)
    (hcs : spans cs = first :: back) :
    spans (('(' :: inside ++ [')']) ++ cs) = (('(' :: inside ++ [')']) ++ first) :: back := by
  obtain ⟨rfl, rfl⟩ := List.cons.inj hcs
  have hsplit := h.splitArguments_zero [] (List.forall_mem_nil _) cs
  rw [List.nil_append] at hsplit
  rw [spans, hsplit]

/-- The arguments between matched parentheses are balanced. -/
theorem balanced_of_mem_spans (h : Balanced cs) : ∀ span ∈ spans cs, Balanced span := by
  induction h with
  | nil => exact List.forall_mem_singleton.mpr .nil
  | @cons c cs hopen hclose _ ih =>
    by_cases hc : c = ',' ∧ isGroup cs = false
    · obtain ⟨rfl, hgroup⟩ := hc
      rw [spans_separator hgroup]
      exact List.forall_mem_cons.mpr ⟨.nil, ih⟩
    · obtain ⟨hfirst, hback⟩ := List.forall_mem_cons.mp ih
      rw [spans_cons hopen hclose (by grind) rfl]
      exact List.forall_mem_cons.mpr ⟨.cons hopen hclose hfirst, hback⟩
  | @group inside after hinside _ _ ih =>
    have heq : '(' :: inside ++ ')' :: after = ('(' :: inside ++ [')']) ++ after := by simp
    obtain ⟨hfirst, hback⟩ := List.forall_mem_cons.mp ih
    rw [heq, spans_enclosed hinside rfl]
    exact List.forall_mem_cons.mpr ⟨hinside.enclosed.append hfirst, hback⟩

end spans

theorem length_lt_extent {span : List Char} {spans : List (List Char)} (h : span ∈ spans) :
    span.length < extent spans := by
  induction spans with
  | nil => contradiction
  | cons a others ih =>
    rw [extent_cons]
    rcases List.mem_cons.mp h with rfl | h
    · omega
    · have := ih h
      omega

theorem plain_of_isDigit {c : Char} (h : c.isDigit = true) : c ≠ '(' ∧ c ≠ ')' ∧ c ≠ ',' := by
  refine ⟨?_, ?_, ?_⟩ <;> rintro rfl <;> contradiction

theorem splitArguments_digits {digits : List Char} (h : digits.all Char.isDigit) (depth : Nat)
    (rest : List Char) :
    splitArguments depth (digits ++ rest) =
      (digits ++ (splitArguments depth rest).1, (splitArguments depth rest).2) :=
  splitArguments_plain (fun c hc => plain_of_isDigit (List.all_eq_true.mp h c hc)) depth rest

theorem splitArguments_groups {cs tail : List Char} (htail : StartsWithoutDigit tail) :
    splitArguments 0 ((Literal.groups cs).1 ++ tail) =
      ((Literal.groups cs).1 ++ (splitArguments 0 tail).1, (splitArguments 0 tail).2) := by
  fun_induction Literal.groups cs with
  | case1 a b c rest h more rest' hr ih =>
    rw [hr] at ih
    have hmore : StartsWithoutDigit (more ++ tail) := by
      have := Literal.startsWithoutDigit_groups_append rest htail
      rwa [hr] at this
    have hgroup : isGroup (a :: b :: c :: (more ++ tail)) := Literal.isGroup_append h hmore
    have hstep := splitArguments_digits (Literal.all_isDigit_of_isGroup h) 0 (more ++ tail)
    rw [ih] at hstep
    simp only [List.cons_append]
    rw [splitArguments_cons (.inr (.inr hgroup))]
    exact Prod.ext (congrArg (',' :: ·.1) hstep) (congrArg (·.2) hstep)
  | case2 => rfl
  | case3 => rfl

/-- A number is part of one argument, with all its commas. -/
theorem splitArguments_literal {text tail : List Char} (h : IsLiteral text)
    (htail : StartsWithoutDigit tail) :
    splitArguments 0 (text ++ tail) =
      (text ++ (splitArguments 0 tail).1, (splitArguments 0 tail).2) := by
  obtain ⟨digits, cs, places, rfl, hdigits, hplaces, -⟩ := h.eq_append
  have hfraction : StartsWithoutDigit (places ++ tail) ∧
      splitArguments 0 (places ++ tail) =
        (places ++ (splitArguments 0 tail).1, (splitArguments 0 tail).2) := by
    rcases hplaces with rfl | ⟨ds, rfl, hds⟩
    · exact ⟨htail, rfl⟩
    · refine ⟨Literal.startsWithoutDigit_cons (by decide), ?_⟩
      rw [List.cons_append, splitArguments_cons (.inl (by decide)), splitArguments_digits hds]
      rfl
  rw [List.append_assoc, List.append_assoc, splitArguments_digits hdigits,
    splitArguments_groups hfraction.1, hfraction.2]
  simp

end SymbolicCalculus.Nesting
