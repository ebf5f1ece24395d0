import SymbolicCalculus.Proofs.CanonicalText
import SymbolicCalculus.Proofs.GroupGrammar

/-!
# The parser accepts its grammar

`Formula.parse_eq_ok_iff`: the parser reads a text as an expression exactly if the grammar derives
it. A derived operand leaves the accumulator with the operand joined to what stands on its left, and
so the parser accepts whatever is derived (`Derives.isParsed`). In the other direction, the state of
a run says what the text so far makes of an operand after it (`HasRead`); each step keeps to that,
and at the end of a group it is a derivation of the whole (`HasRead.derives`).
-/

namespace SymbolicCalculus

open Nesting (Separated byteLength)

namespace Accumulator

variable {α : Type} {acc acc' : Accumulator α} {op : Operator} {e : Expr α} {index : Nat}

/-- What stands on the left after one more operand. -/
def joined (acc : Accumulator α) (e : Expr α) : Expr α :=
  match acc.left?, acc.pending? with
  | some left, some op => .binary op left (negated acc.negations e)
  | _, _ => negated acc.negations e

/-- An operand is taken exactly where one is expected. -/
theorem operand_eq_ok_iff :
    acc.operand e index = .ok acc' ↔
      acc.expectsOperand = true ∧ acc' = { left? := some (acc.joined e) } := by
  obtain ⟨left?, pending?, negations⟩ := acc
  cases left? <;> cases pending? <;>
    simp [operand, expectsOperand, joined, eq_comm]

/-- A minus sign or a plus sign where an operand is expected, or an operator after one. -/
theorem operator_eq_ok (h : acc.operator op index = .ok acc') :
    acc.expectsOperand = true ∧
      (op = .minus ∧ acc' = { acc with negations := acc.negations + 1 } ∨
        op = .plus ∧ acc' = acc) ∨
    acc.expectsOperand = false ∧ acc' = { acc with pending? := some op } := by
  unfold operator at h
  split at h
  · next hacc =>
    split at h
    · exact .inl ⟨hacc, .inl ⟨rfl, (Except.ok.inj h).symm⟩⟩
    · exact .inl ⟨hacc, .inr ⟨rfl, (Except.ok.inj h).symm⟩⟩
    · contradiction
  · next hacc => exact .inr ⟨by simpa using hacc, (Except.ok.inj h).symm⟩

end Accumulator

namespace Formula

variable {α : Type} [Numeral α]

/-! ## What is derived is read -/

/-- How the parser takes a piece that stands for an expression, with whatever cannot extend it after
it: a group at its start, and an operand wherever one is expected. -/
def IsParsed : Piece → Nat → List Char → Expr α → Prop
  | .group, n, cs, e => ∀ (start index : Nat) ⦃limit depth : Nat⦄ ⦃rest : List Char⦄,
    depth + n ≤ limit → EndsWord rest →
    ∃ index', operands limit depth start {} index (cs ++ rest) =
      operands limit depth start { left? := some e } index' rest
  | .operand, n, cs, e => ∀ (start index : Nat) (acc : Accumulator α) ⦃limit depth : Nat⦄
    ⦃rest : List Char⦄, depth + n ≤ limit → acc.expectsOperand = true → EndsWord rest →
    ∃ index', operands limit depth start acc index (cs ++ rest) =
      operands limit depth start { left? := some (acc.joined e) } index' rest

section pieces

variable {n : Nat} {cs ds : List Char} {a b e : Expr α}

theorem isParsed_operator (op : Operator) (ha : IsParsed .group n cs a)
    (hb : IsParsed .operand n ds b) :
    IsParsed .group n (cs ++ op.symbol :: ds) (.binary op a b) := by
  intro start index limit depth rest hdepth hrest
  obtain ⟨i, hi⟩ := ha start index hdepth (endsWord_symbol op (ds ++ rest))
  obtain ⟨j, hj⟩ := hb start (i + 1) { left? := some a, pending? := some op } hdepth rfl hrest
  refine ⟨j, ?_⟩
  rw [List.append_assoc, List.cons_append, hi, operands_operator]
  exact hj

theorem isParsed_blankAfter {c : Char} (hc : Text.isBlank c = true)
    (h : IsParsed .group n cs e) : IsParsed .group n (cs ++ [c]) e := by
  intro start index limit depth rest hdepth hrest
  obtain ⟨i, hi⟩ := h start index hdepth (endsWord_blank hc rest)
  exact ⟨i + c.utf8Size, by rw [List.append_assoc, List.singleton_append, hi, operands_blank hc]⟩

theorem isParsed_blankBefore {c : Char} (hc : Text.isBlank c = true)
    (h : IsParsed .operand n cs e) : IsParsed .operand n (c :: cs) e := by
  intro start index acc limit depth rest hdepth hacc hrest
  obtain ⟨i, hi⟩ := h start (index + c.utf8Size) acc hdepth hacc hrest
  exact ⟨i, by rw [List.cons_append, operands_blank hc, hi]⟩

theorem operands_sign {op : Operator} {limit depth start index : Nat} {acc acc' : Accumulator α}
    (h : acc.operator op index = .ok acc') (rest : List Char) :
    operands limit depth start acc index (op.symbol :: rest) =
      operands limit depth start acc' (index + 1) rest := by
  rw [operands_operator, h]
  rfl

theorem isParsed_minus (h : IsParsed .operand n cs e) :
    IsParsed .operand n ('-' :: cs) (.neg e) := by
  intro start index acc limit depth rest hdepth hacc hrest
  have hsign : acc.operator .minus index = .ok { acc with negations := acc.negations + 1 } := by
    rw [Accumulator.operator, if_pos hacc]
  obtain ⟨i, hi⟩ := h start (index + 1) { acc with negations := acc.negations + 1 } hdepth hacc
    hrest
  exact ⟨i, (operands_sign hsign (cs ++ rest)).trans hi⟩

theorem isParsed_plus (h : IsParsed .operand n cs e) : IsParsed .operand n ('+' :: cs) e := by
  intro start index acc limit depth rest hdepth hacc hrest
  have hsign : acc.operator .plus index = .ok acc := by
    rw [Accumulator.operator, if_pos hacc]
  obtain ⟨i, hi⟩ := h start (index + 1) acc hdepth hacc hrest
  exact ⟨i, (operands_sign hsign (cs ++ rest)).trans hi⟩

/-- A group by itself. -/
theorem IsParsed.group {limit depth start : Nat} (h : IsParsed .group n cs e)
    (hdepth : depth + n ≤ limit) : Formula.group limit depth start cs = .ok e := by
  obtain ⟨i, hi⟩ := h start start hdepth endsWord_nil
  rw [List.append_nil] at hi
  rw [group_eq_operands (by omega), hi, operands_nil]
  rfl

/-- An operand that the parser finds at the start of a text. -/
theorem isParsed_of_operandAt
    (h : ∀ index {limit depth : Nat} {rest : List Char}, depth + n ≤ limit → EndsWord rest →
      ∃ index', OperandAt limit depth index (cs ++ rest) e index' rest) :
    IsParsed .operand n cs e := by
  intro start index acc limit depth rest hdepth hacc hrest
  obtain ⟨i, hi⟩ := h index hdepth hrest
  refine ⟨i, ?_⟩
  rw [hi.operands, Accumulator.operand_eq_ok_iff.mpr ⟨hacc, rfl⟩]
  rfl

theorem isParsed_parentheses (hbalanced : Nesting.Balanced cs) (h : IsParsed .group n cs e) :
    IsParsed .operand (n + 1) ('(' :: cs ++ [')']) e := by
  apply isParsed_of_operandAt
  intro index limit depth rest hdepth _
  exact ⟨_, operandAt_enclosed hbalanced (h.group (by omega)) rest⟩

/-- Arguments that are groups. -/
theorem arguments_eq_ok {limit depth start : Nat} {xs : List (List Char × Expr α)}
    (h : ∀ x ∈ xs, IsParsed .group n x.1 x.2) (hdepth : depth + n ≤ limit) :
    arguments limit depth start (xs.map Prod.fst) = .ok (xs.map Prod.snd) := by
  induction xs generalizing start with
  | nil => rw [List.map_nil, arguments, List.map_nil]
  | cons x xs ih =>
    obtain ⟨hx, hxs⟩ := List.forall_mem_cons.mp h
    rw [List.map_cons, arguments, hx.group hdepth, ih hxs]
    rfl

theorem isParsed_call {f : Builtin} {blanks inside : List Char} {xs : List (List Char × Expr α)}
    (hblanks : blanks.all Text.isBlank) (hbalanced : Nesting.Balanced inside)
    (hspans : Nesting.spans inside = xs.map Prod.fst)
    (he : Expr.accepted? f (xs.map Prod.snd) = some e)
    (h : ∀ x ∈ xs, IsParsed .group n x.1 x.2) :
    IsParsed .operand (n + 1) (f.letters ++ blanks ++ ('(' :: inside ++ [')'])) e := by
  apply isParsed_of_operandAt
  intro index limit depth rest hdepth _
  have heq : f.letters ++ blanks ++ ('(' :: inside ++ [')']) ++ rest =
      f.letters ++ (blanks ++ '(' :: (inside ++ ')' :: rest)) := by simp
  have hcall := f.called?_letters_append hblanks (inside ++ ')' :: rest)
  have hinside : Nesting.splitClosing? 0
      ((Text.skipBlanks (blanks ++ '(' :: (inside ++ ')' :: rest))).drop 1) =
        some (inside, rest) := by
    rw [Text.skipBlanks_append hblanks]
    exact hbalanced.splitClosing?_zero rest
  have harguments (start : Nat) : arguments limit (depth + 1) start (Nesting.spans inside) =
      .ok (xs.map Prod.snd) := by
    rw [hspans]
    exact arguments_eq_ok h (by omega)
  obtain ⟨c, cs, hletters, hc⟩ := f.letters_eq_cons
  rw [heq]
  rw [hletters, List.cons_append] at hcall ⊢
  exact ⟨_, .call hc hcall rfl hinside (harguments _) he⟩

theorem isParsed_number {digits : List Char} {v : α} (hdigits : Literal.IsLiteral digits)
    (hv : Literal.value? digits = some v) : IsParsed .operand n digits (.const v) := by
  apply isParsed_of_operandAt
  intro index limit depth rest _ hrest
  have hliteral := hdigits.append hrest.number
  obtain ⟨c, cs, rfl, hc⟩ := hdigits.eq_cons
  exact ⟨_, .number hc hliteral hv⟩

theorem isParsed_letter {c : Char} (hc : c.isAlpha = true) :
    IsParsed .operand n [c] (.param (String.singleton c) : Expr α) := by
  apply isParsed_of_operandAt
  intro index limit depth rest _ hrest
  exact ⟨_, .letter hc (Builtin.called?_eq_none hrest.letter)⟩

/-- The parser takes what is derived. -/
theorem Derives.isParsed {piece : Piece} (h : Derives piece n cs e) : IsParsed piece n cs e := by
  induction h with
  | operand _ ih =>
    intro start index limit depth rest hdepth hrest
    exact ih start index {} hdepth rfl hrest
  | operator op _ _ iha ihb => exact isParsed_operator op iha ihb
  | blankAfter hc _ ih => exact isParsed_blankAfter hc ih
  | blankBefore hc _ ih => exact isParsed_blankBefore hc ih
  | minus _ ih => exact isParsed_minus ih
  | plus _ ih => exact isParsed_plus ih
  | parentheses h ih => exact isParsed_parentheses h.balanced ih
  | call hblanks harguments hseparated he ih =>
    have hbalanced := hseparated.balanced
      (List.forall_mem_map.mpr fun x hx => (harguments x hx).balanced)
    have hspans := hseparated.spans_eq
      (List.forall_mem_map.mpr fun x hx => (harguments x hx).isPassedOver)
    exact isParsed_call hblanks hbalanced hspans he ih
  | number hdigits hv => exact isParsed_number hdigits hv
  | letter hc => exact isParsed_letter hc

end pieces

/-! ## What is read is derived -/

/-- What the text of a group says up to some point of a run: how it goes on with an operand where
one is expected, and that it is a group already where none is. -/
structure HasRead (n : Nat) (acc : Accumulator α) (cs : List Char) : Prop where
  expects : acc.expectsOperand = true → ∀ ds e, Derives .operand n ds e →
    Derives .group n (cs ++ ds) (acc.joined e)
  complete : acc.expectsOperand = false →
    acc.negations = 0 ∧ ∃ a, acc.left? = some a ∧ Derives .group n cs a

namespace HasRead

variable {n index : Nat} {acc acc' : Accumulator α} {cs : List Char}

theorem start : HasRead n ({} : Accumulator α) [] :=
  ⟨fun _ _ _ h => .operand h, nofun⟩

theorem blank {c : Char} (hc : Text.isBlank c = true) (h : HasRead n acc cs) :
    HasRead n acc (cs ++ [c]) where
  expects hacc ds e hds := by
    rw [List.append_assoc]
    exact h.expects hacc (c :: ds) e (.blankBefore hc hds)
  complete hacc := by
    obtain ⟨hnegations, a, ha, hcs⟩ := h.complete hacc
    exact ⟨hnegations, a, ha, .blankAfter hc hcs⟩

theorem operator {op : Operator} (h : HasRead n acc cs)
    (hop : acc.operator op index = .ok acc') : HasRead n acc' (cs ++ [op.symbol]) := by
  obtain ⟨hacc, ⟨rfl, rfl⟩ | ⟨rfl, rfl⟩⟩ | ⟨hacc, rfl⟩ := Accumulator.operator_eq_ok hop
  · refine ⟨fun _ ds e hds => ?_, fun hacc' => absurd (hacc.symm.trans hacc') (by decide)⟩
    rw [List.append_assoc]
    exact h.expects hacc ('-' :: ds) (.neg e) (.minus hds)
  · refine ⟨fun _ ds e hds => ?_, fun hacc' => absurd (hacc.symm.trans hacc') (by decide)⟩
    rw [List.append_assoc]
    exact h.expects hacc ('+' :: ds) e (.plus hds)
  · obtain ⟨hnegations, a, ha, hcs⟩ := h.complete hacc
    refine ⟨fun _ ds e hds => ?_, fun hacc' => ?_⟩
    · rw [List.append_assoc, Accumulator.joined, ha, hnegations]
      exact .operator op hcs hds
    · simp [Accumulator.expectsOperand] at hacc'

theorem operand {ds : List Char} {e : Expr α} (h : HasRead n acc cs)
    (hds : Derives .operand n ds e) (he : acc.operand e index = .ok acc') :
    HasRead n acc' (cs ++ ds) := by
  obtain ⟨hacc, rfl⟩ := Accumulator.operand_eq_ok_iff.mp he
  exact ⟨nofun, fun _ => ⟨rfl, acc.joined e, rfl, h.expects hacc ds e hds⟩⟩

/-- At the end of a group, its text is derived. -/
theorem derives {start stop : Nat} {e : Expr α} (h : HasRead n acc cs)
    (he : acc.finish start stop = .ok e) : Derives .group n cs e := by
  obtain ⟨left?, pending?, negations⟩ := acc
  unfold Accumulator.finish at he
  split at he
  · contradiction
  · next hnone =>
    split at he
    · next a ha =>
      obtain rfl := Except.ok.inj he
      obtain rfl : left? = some a := ha
      obtain rfl : pending? = none := by simp_all
      obtain ⟨-, b, hb, hcs⟩ := h.complete rfl
      obtain rfl : a = b := Option.some.inj hb
      exact hcs
    · contradiction

end HasRead

section runs

variable {limit depth start index n : Nat} {acc : Accumulator α} {cs : List Char} {e : Expr α}

theorem group_eq_ok (h : group limit depth start cs = .ok e) :
    depth ≤ limit ∧ operands limit depth start {} start cs = .ok e := by
  rw [group] at h
  split at h
  · contradiction
  · exact ⟨by omega, h⟩

/-- Each argument of a call is a group of its own. -/
theorem groups_of_arguments {spans : List (List Char)} {es : List (Expr α)}
    (h : arguments limit depth start spans = .ok es) :
    ∃ xs : List (List Char × Expr α), xs.map Prod.fst = spans ∧ xs.map Prod.snd = es ∧
      ∀ x ∈ xs, ∃ start, group limit depth start x.1 = .ok x.2 := by
  induction spans generalizing start es with
  | nil =>
    rw [arguments] at h
    obtain rfl := Except.ok.inj h
    exact ⟨[], rfl, rfl, List.forall_mem_nil _⟩
  | cons span others ih =>
    rw [arguments] at h
    obtain ⟨e, he, h⟩ := bind_eq_ok.mp h
    obtain ⟨es', hes', h⟩ := bind_eq_ok.mp h
    obtain rfl := Except.ok.inj h
    obtain ⟨xs, rfl, rfl, hxs⟩ := ih hes'
    exact ⟨(span, e) :: xs, rfl, rfl, List.forall_mem_cons.mpr ⟨⟨start, he⟩, hxs⟩⟩

/-- An operand is derived if the shorter groups within it are. -/
theorem OperandAt.derives {after : List Char} {index' : Nat} (hdepth : depth + n = limit)
    (ih : ∀ inside : List Char, inside.length < cs.length → ∀ {n depth start} {e : Expr α},
      depth + n = limit → Formula.group limit depth start inside = .ok e →
      Derives .group n inside e)
    (h : OperandAt limit depth index cs e index' after) :
    ∃ ds, cs = ds ++ after ∧ Derives .operand n ds e := by
  cases h with
  | @group rest inside _ _ hsplit hgroup =>
    have hlimit := (group_eq_ok hgroup).1
    obtain ⟨m, rfl⟩ : ∃ m, n = m + 1 := ⟨n - 1, by omega⟩
    have hlength : inside.length < ('(' :: rest).length := by
      have := Nesting.length_of_splitClosing? hsplit
      rw [List.length_cons]
      omega
    have hinside := ih inside hlength (n := m) (by omega) hgroup
    refine ⟨'(' :: inside ++ [')'], ?_, .parentheses hinside⟩
    rw [Nesting.eq_of_splitClosing? hsplit]
    simp
  | @letter c rest hc _ => exact ⟨[c], rfl, .letter hc⟩
  | @call c rest afterName inside _ f _ es _ _ hcall _ hsplit hes he =>
    obtain ⟨xs, hspans, rfl, hxs⟩ := groups_of_arguments hes
    obtain ⟨blanks, inside', hname, hblanks, rfl⟩ := Builtin.eq_of_called? hcall
    have hlength := length_of_called_group hcall hsplit
    have hextent := Nesting.extent_spans inside
    rw [Text.skipBlanks_append hblanks, List.drop_one, List.tail_cons] at hsplit
    -- there is at least one argument, and so the limit leaves room for one more group
    have hlimit : depth + 1 ≤ limit := by
      have hfirst : (Nesting.splitArguments 0 inside).1 ∈ xs.map Prod.fst := by
        rw [hspans]
        exact List.mem_cons_self
      obtain ⟨x, hx, -⟩ := List.mem_map.mp hfirst
      obtain ⟨start, hgroup⟩ := hxs x hx
      exact (group_eq_ok hgroup).1
    obtain ⟨m, rfl⟩ : ∃ m, n = m + 1 := ⟨n - 1, by omega⟩
    have hseparated : Separated inside (xs.map Prod.fst) := by
      rw [hspans]
      exact Nesting.separated_splitArguments 0 inside
    have harguments (x) (hx : x ∈ xs) : Derives .group m x.1 x.2 := by
      obtain ⟨start, hgroup⟩ := hxs x hx
      have hspan := Nesting.length_lt_extent (hspans ▸ List.mem_map_of_mem hx)
      exact ih x.1 (by omega) (by omega) hgroup
    refine ⟨f.letters ++ blanks ++ ('(' :: inside ++ [')']), ?_,
      .call hblanks harguments hseparated he⟩
    rw [hname, Nesting.eq_of_splitClosing? hsplit]
    simp
  | @number c rest text _ v _ hliteral hv =>
    exact ⟨text, (Literal.append_of_literal? hliteral).symm, .number ⟨_, _, hliteral⟩ hv⟩

/-- A run that ends well has derived the whole text. -/
theorem HasRead.of_operands {seen : List Char} (hdepth : depth + n = limit)
    (hseen : HasRead n acc seen) (h : operands limit depth start acc index cs = .ok e) :
    Derives .group n (seen ++ cs) e := by
  -- The induction is on the length, since a group within an operand is no part of the list.
  induction hlength : cs.length using Nat.strong_induction_on
    generalizing cs depth start index acc seen n e with
  | h length ih =>
    subst hlength
    have hgroup (inside : List Char) (hlt : inside.length < cs.length) {n depth start e}
        (hdepth : depth + n = limit) (h : group limit depth start inside = .ok e) :
        Derives .group n inside e :=
      ih _ hlt hdepth .start (group_eq_ok h).2 rfl
    obtain ⟨rfl, hfinish⟩ | ⟨c, rest, rfl, hc, hrest⟩ | ⟨op, rest, acc', rfl, hacc', hrest⟩ |
      ⟨a, index', after, acc', hat, hacc', hrest⟩ := operands_eq_ok h
    · rw [List.append_nil]
      exact hseen.derives hfinish
    · have := ih _ (Nat.lt_succ_self _) hdepth (hseen.blank hc) hrest rfl
      rwa [List.append_assoc] at this
    · have := ih _ (Nat.lt_succ_self _) hdepth (hseen.operator hacc') hrest rfl
      rwa [List.append_assoc] at this
    · obtain ⟨ds, rfl, hds⟩ := hat.derives hdepth hgroup
      have := ih _ hat.length_lt hdepth (hseen.operand hds hacc') hrest rfl
      rwa [List.append_assoc] at this

end runs

/-- What the parser makes of the characters of a text. -/
theorem parseChars_eq_ok_iff (maxDepth : Nat) (cs : List Char) (e : Expr α) :
    parseChars maxDepth cs = .ok e ↔ Derives .group maxDepth cs e := by
  rw [parseChars]
  constructor
  · intro h
    exact HasRead.start.of_operands (Nat.zero_add maxDepth) (group_eq_ok h).2
  · intro h
    exact h.isParsed.group (by omega)

/-- **The parser accepts exactly its grammar.** A text is read as an expression if and only if the
grammar derives it, with groups and arguments nested no deeper than the limit. -/
theorem parse_eq_ok_iff (maxDepth : Nat) (text : String) (e : Expr α) :
    parse maxDepth text = .ok e ↔ Derives .group maxDepth text.toList e := by
  rw [parse]
  exact parseChars_eq_ok_iff maxDepth text.toList e

end Formula

end SymbolicCalculus
