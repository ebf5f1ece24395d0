import SymbolicCalculus.Binary64.Text
import SymbolicCalculus.Derivation
import SymbolicCalculus.Proofs.ErrorPositions

/-!
# The numbers of a text

A number is made of digits, commas that separate groups of three of them, and at most one point
(`Literal.IsNumber`). Where one starts, the longest one is selected, and where none starts, nothing
is (`Literal.literal?_eq_none_iff`, `Literal.length_le_of_literal?`). Without its commas a number is
a decimal, which always has a value, and so no text is rejected for a number that cannot be read
(`Formula.selected_number_isRead`).
-/

namespace SymbolicCalculus

open Nesting (byteLength)

namespace Literal

/-! ## Commas in numbers -/

/-- Three digits. -/
def IsTriple (cs : List Char) : Prop :=
  cs.length = 3 ∧ cs.all Char.isDigit

/-- One to three digits, as a number with commas starts with. -/
def IsLeading (cs : List Char) : Prop :=
  1 ≤ cs.length ∧ cs.length ≤ 3 ∧ cs.all Char.isDigit

/-- The last comma has three digits after it. -/
def EndsWithGroup (cs : List Char) : Prop :=
  ∃ lead triple, cs = lead ++ ',' :: triple ∧ IsTriple triple

/-- In a number that `rest` follows, a comma between `before` and `after` stands after one to three
leading digits or after a full group, and before exactly three digits. -/
structure SeparatesGroups (before after rest : List Char) : Prop where
  before : IsLeading before ∨ EndsWithGroup before
  after : ∃ triple more, after = triple ++ more ∧ IsTriple triple ∧
    StartsWithoutDigit (more ++ rest)

/-- The text is a number where `rest` follows it. -/
structure IsNumber (text rest : List Char) : Prop where
  mem : ∀ c ∈ text, c.isDigit = true ∨ c = ',' ∨ c = '.'
  digit : ∃ c ∈ text, c.isDigit = true
  point : text.count '.' ≤ 1
  comma : ∀ before after, text = before ++ ',' :: after → SeparatesGroups before after rest
  decimal : IsDecimal (text.filter (· != ','))

variable {cs text rest before after : List Char}

theorem SeparatesGroups.isGroup (h : SeparatesGroups before after rest) :
    isGroup (after ++ rest) = true := by
  obtain ⟨-, triple, more, rfl, ⟨hlen, hdigits⟩, hmore⟩ := h
  rw [List.append_assoc]
  exact isGroup_iff.mpr ⟨triple, more ++ rest, rfl, hlen, hdigits, hmore⟩

/-- A comma in two texts is in one of them. -/
theorem exists_of_append_eq {ds : List Char} (h : cs ++ ds = before ++ ',' :: after) :
    (∃ more, cs = before ++ ',' :: more ∧ after = more ++ ds) ∨
      ∃ more, before = cs ++ more ∧ ds = more ++ ',' :: after := by
  obtain ⟨more, hbefore, hds⟩ | ⟨more, hcs, hafter⟩ := List.append_eq_append_iff.mp h
  · exact .inr ⟨more, hbefore, hds⟩
  · cases more with
    | nil => exact .inr ⟨[], by simpa using hcs.symm, hafter.symm⟩
    | cons c more =>
      obtain ⟨rfl, hmore⟩ := List.cons.inj hafter
      exact .inl ⟨more, hcs, hmore⟩

theorem exists_of_append_eq_of_not_mem (cs : List Char) {ds : List Char} (hcs : ',' ∉ cs)
    (h : cs ++ ds = before ++ ',' :: after) :
    ∃ more, before = cs ++ more ∧ ds = more ++ ',' :: after := by
  obtain ⟨more, rfl, -⟩ | hds := exists_of_append_eq h
  · simp at hcs
  · exact hds

theorem comma_not_mem_of_digits {digits : List Char} (h : digits.all Char.isDigit) :
    ',' ∉ digits :=
  fun hmem => absurd (List.all_eq_true.mp h ',' hmem) (by decide)

theorem startsWithoutDigit_of_isGroup {a b c : Char} (h : isGroup (a :: b :: c :: rest)) :
    StartsWithoutDigit rest := by
  obtain ⟨digits, rest', heq, hlen, -, hrest⟩ := isGroup_iff.mp h
  obtain ⟨x, y, z, rfl⟩ := List.length_eq_three.mp hlen
  obtain ⟨-, -, -, rfl⟩ : a = x ∧ b = y ∧ c = z ∧ rest = rest' := by simpa using heq
  exact hrest

/-- A comma in the groups of a number starts them or stands after a group. -/
theorem separates_of_groups (h : (groups cs).1 = before ++ ',' :: after) :
    (before = [] ∨ EndsWithGroup before) ∧
      ∃ triple more, after = triple ++ more ∧ IsTriple triple ∧
        StartsWithoutDigit (more ++ (groups cs).2) := by
  fun_induction groups cs generalizing before with
  | case1 a b c rest hgroup more rest' hr ih =>
    have hdigits : IsTriple [a, b, c] := ⟨rfl, all_isDigit_of_isGroup hgroup⟩
    rw [hr] at ih
    cases before with
    | nil =>
      obtain ⟨-, rfl⟩ := List.cons.inj h
      refine ⟨.inl rfl, [a, b, c], more, rfl, hdigits, ?_⟩
      have hrest := append_groups rest
      rw [hr] at hrest
      rw [hrest]
      exact startsWithoutDigit_of_isGroup hgroup
    | cons d before =>
      obtain ⟨rfl, hafter⟩ := List.cons.inj h
      obtain ⟨between, rfl, hmore⟩ :=
        exists_of_append_eq_of_not_mem [a, b, c] (comma_not_mem_of_digits hdigits.2) hafter
      obtain ⟨hbefore, hthree⟩ := ih hmore
      refine ⟨.inr ?_, hthree⟩
      obtain rfl | ⟨lead, triple, rfl, htriple⟩ := hbefore
      · exact ⟨[], [a, b, c], rfl, hdigits⟩
      · exact ⟨',' :: a :: b :: c :: lead, triple, rfl, htriple⟩
  | case2 => simp at h
  | case3 => simp at h

theorem separatesGroups_of_integral (h : (integral cs).1 = before ++ ',' :: after) :
    SeparatesGroups before after (integral cs).2 := by
  have hdigits := all_isDigit_takeWhile cs
  unfold integral at h ⊢
  dsimp only at h ⊢
  split at h
  · next hlen =>
    rw [if_pos hlen]
    obtain ⟨between, rfl, hgroups⟩ :=
      exists_of_append_eq_of_not_mem _ (comma_not_mem_of_digits hdigits) h
    obtain ⟨hbetween, hthree⟩ := separates_of_groups hgroups
    refine ⟨?_, hthree⟩
    obtain rfl | ⟨lead, triple, rfl, htriple⟩ := hbetween
    · rw [List.append_nil]
      exact .inl ⟨hlen.1, hlen.2, hdigits⟩
    · exact .inr ⟨_, triple, (List.append_assoc ..).symm, htriple⟩
  · have hmem : ',' ∈ before ++ ',' :: after := List.mem_append_right before List.mem_cons_self
    rw [← h] at hmem
    exact absurd hmem (comma_not_mem_of_digits hdigits)

/-! ## Where a number ends -/

/-- A number is its digits with their groups and its fraction. -/
theorem literal?_eq_some (h : literal? cs = some (text, rest)) :
    text = (integral cs).1 ++ (fraction (integral cs).2).1 ∧
      rest = (fraction (integral cs).2).2 := by
  unfold literal? at h
  dsimp only at h
  split at h
  · contradiction
  · obtain ⟨rfl, rfl⟩ := Prod.ext_iff.mp (Option.some.inj h)
    exact ⟨rfl, rfl⟩

theorem startsWithoutDigit_groups (h : StartsWithoutDigit cs) :
    StartsWithoutDigit (groups cs).2 := by
  fun_induction groups cs with
  | case1 a b c rest hgroup more rest' hr ih =>
    rw [hr] at ih
    exact ih (startsWithoutDigit_of_isGroup hgroup)
  | case2 => exact h
  | case3 => exact h

theorem startsWithoutGroup_groups (cs : List Char) : StartsWithoutGroup (groups cs).2 := by
  fun_induction groups cs with
  | case1 a b c rest hgroup more rest' hr ih => rwa [hr] at ih
  | case2 a b c rest hgroup =>
    intro rest' h
    obtain rfl := (List.cons.inj h).2
    simpa using hgroup
  | case3 cs hcs =>
    rintro rest rfl
    rw [Bool.eq_false_iff]
    intro hgroup
    obtain ⟨digits, rest', rfl, hlen, -, -⟩ := isGroup_iff.mp hgroup
    obtain ⟨a, b, c, rfl⟩ := List.length_eq_three.mp hlen
    exact hcs a b c rest' rfl

theorem startsWithoutDigit_integral (cs : List Char) : StartsWithoutDigit (integral cs).2 := by
  unfold integral
  dsimp only
  split
  · exact startsWithoutDigit_groups (startsWithoutDigit_dropWhile cs)
  · exact startsWithoutDigit_dropWhile cs

/-- Digits that groups may follow are followed by all there are. -/
theorem startsWithoutGroup_integral (cs : List Char)
    (h : IsLeading (integral cs).1 ∨ EndsWithGroup (integral cs).1) :
    StartsWithoutGroup (integral cs).2 := by
  have hdigits := all_isDigit_takeWhile cs
  unfold integral at h ⊢
  dsimp only at h ⊢
  split at h
  · next hlen =>
    rw [if_pos hlen]
    exact startsWithoutGroup_groups _
  · next hlen =>
    exfalso
    obtain ⟨hlow, hhigh, -⟩ | ⟨lead, triple, heq, -⟩ := h
    · exact hlen ⟨hlow, hhigh⟩
    · have hcomma : ',' ∈ lead ++ ',' :: triple := List.mem_append_right lead List.mem_cons_self
      rw [← heq] at hcomma
      exact comma_not_mem_of_digits hdigits hcomma

/-- A text with a point in it is neither leading digits nor does it end with a group. -/
theorem not_separates_of_point (cs : List Char) {ds : List Char} (hds : ',' ∉ ds) :
    ¬ (IsLeading (cs ++ '.' :: ds) ∨ EndsWithGroup (cs ++ '.' :: ds)) := by
  rintro (⟨-, -, hdigits⟩ | ⟨lead, triple, heq, -, hdigits⟩)
  · have hpoint := List.all_eq_true.mp hdigits '.' (List.mem_append_right cs List.mem_cons_self)
    contradiction
  · obtain ⟨more, -, rfl⟩ | ⟨more, -, hmore⟩ := exists_of_append_eq heq
    · have hpoint := List.all_eq_true.mp hdigits '.' (List.mem_append_right more List.mem_cons_self)
      contradiction
    · have hcomma : ',' ∈ '.' :: ds := hmore ▸ List.mem_append_right more List.mem_cons_self
      simp [hds] at hcomma

/-- What follows a number: no digit, a point only if there is one in it already, and no group if
there could be one more. -/
theorem ends_of_literal? (h : literal? cs = some (text, rest)) :
    StartsWithoutDigit rest ∧ ('.' ∈ rest.head? → '.' ∈ text) ∧
      (IsLeading text ∨ EndsWithGroup text → StartsWithoutGroup rest) := by
  obtain ⟨rfl, rfl⟩ := literal?_eq_some h
  have hdigit := startsWithoutDigit_integral cs
  have hgroup := startsWithoutGroup_integral cs
  generalize (integral cs).2 = tail at *
  fun_cases fraction tail with
  | case1 more =>
    have hcomma := comma_not_mem_of_digits (all_isDigit_takeWhile more)
    exact ⟨startsWithoutDigit_dropWhile more,
      fun _ => List.mem_append_right _ List.mem_cons_self,
      fun hsep => absurd hsep (not_separates_of_point _ hcomma)⟩
  | case2 _ hpoint =>
    rw [List.append_nil]
    refine ⟨hdigit, fun hhead => ?_, hgroup⟩
    obtain ⟨more, rfl⟩ := List.head?_eq_some_iff.mp hhead
    exact absurd rfl (hpoint more)

/-! ## Selected numbers -/

theorem count_point_of_digits {digits : List Char} (h : digits.all Char.isDigit) :
    digits.count '.' = 0 :=
  List.count_eq_zero.mpr fun hmem => absurd (List.all_eq_true.mp h '.' hmem) (by decide)

theorem IsDecimal.count_point_le (h : IsDecimal cs) : cs.count '.' ≤ 1 := by
  cases h with
  | digits _ hwhole => exact (count_point_of_digits hwhole).trans_le (Nat.zero_le 1)
  | point _ hwhole hplaces =>
    rw [List.count_append, List.count_cons_self, count_point_of_digits hwhole,
      count_point_of_digits hplaces]

theorem IsDecimal.exists_digit (h : IsDecimal cs) : ∃ c ∈ cs, c.isDigit = true := by
  have hfirst {digits : List Char} (hne : digits ≠ []) (hdigits : digits.all Char.isDigit) :
      ∃ c ∈ digits, c.isDigit = true := by
    obtain ⟨c, hc⟩ := List.exists_mem_of_ne_nil digits hne
    exact ⟨c, hc, List.all_eq_true.mp hdigits c hc⟩
  cases h with
  | digits hne hwhole => exact hfirst hne hwhole
  | point hne hwhole hplaces =>
    rcases hne with hne | hne
    · obtain ⟨c, hc, hdigit⟩ := hfirst hne hwhole
      exact ⟨c, List.mem_append_left _ hc, hdigit⟩
    · obtain ⟨c, hc, hdigit⟩ := hfirst hne hplaces
      exact ⟨c, List.mem_append_right _ (List.mem_cons_of_mem _ hc), hdigit⟩

/-- A point at the start of a decimal has a digit after it. -/
theorem IsDecimal.of_point (h : IsDecimal ('.' :: cs)) :
    ∃ d more, cs = d :: more ∧ d.isDigit = true := by
  generalize hds : '.' :: cs = ds at h
  cases h with
  | digits _ hwhole =>
    have hpoint := List.all_eq_true.mp hwhole '.' (hds ▸ List.mem_cons_self)
    contradiction
  | @point whole places hne hwhole hplaces =>
    cases whole with
    | nil =>
      obtain rfl := (List.cons.inj hds).2
      obtain ⟨d, more, rfl⟩ := List.exists_cons_of_ne_nil (hne.resolve_left (absurd rfl))
      exact ⟨d, more, rfl, List.all_eq_true.mp hplaces d List.mem_cons_self⟩
    | cons c whole =>
      obtain rfl := (List.cons.inj hds).1
      have hpoint := List.all_eq_true.mp hwhole '.' List.mem_cons_self
      contradiction

/-- **What is selected is a number.** -/
theorem isNumber_of_literal? (h : literal? cs = some (text, rest)) : IsNumber text rest := by
  have hliteral : IsLiteral text := ⟨cs, rest, h⟩
  have hdecimal := hliteral.isDecimal
  refine ⟨fun c hc => hliteral.mem hc, ?_, ?_, ?_, hdecimal⟩
  · obtain ⟨c, hc, hdigit⟩ := hdecimal.exists_digit
    exact ⟨c, List.mem_of_mem_filter hc, hdigit⟩
  · have hcount := hdecimal.count_point_le
    rwa [List.count_filter (by decide)] at hcount
  · rintro before after rfl
    obtain ⟨htext, rfl⟩ := literal?_eq_some h
    have hplaces : ',' ∉ (fraction (integral cs).2).1 := by
      fun_cases fraction (integral cs).2 with
      | case1 places => simp [comma_not_mem_of_digits (all_isDigit_takeWhile places)]
      | case2 => exact List.not_mem_nil
    obtain ⟨between, hwhole, rfl⟩ | ⟨between, -, hpoint⟩ := exists_of_append_eq htext.symm
    · obtain ⟨hbefore, triple, more, rfl, htriple, hmore⟩ := separatesGroups_of_integral hwhole
      refine ⟨hbefore, triple, more ++ (fraction (integral cs).2).1, List.append_assoc .., htriple,
        ?_⟩
      rwa [List.append_assoc, append_fraction]
    · exact absurd (hpoint ▸ List.mem_append_right between List.mem_cons_self) hplaces

/-- A number starts with a digit, or with a point and a digit. -/
theorem IsNumber.eq_cons (h : IsNumber text rest) :
    ∃ c more, text = c :: more ∧ (c.isDigit = true ∨
      c = '.' ∧ ∃ d more', more = d :: more' ∧ d.isDigit = true) := by
  have hnil : ¬ (IsLeading [] ∨ EndsWithGroup []) := by
    rintro (⟨hlen, -⟩ | ⟨lead, triple, heq, -⟩)
    · contradiction
    · simp at heq
  have hsingle : ¬ (IsLeading ['.'] ∨ EndsWithGroup ['.']) :=
    not_separates_of_point [] List.not_mem_nil
  cases text with
  | nil =>
    obtain ⟨c, hc, -⟩ := h.digit
    contradiction
  | cons c more =>
    refine ⟨c, more, rfl, ?_⟩
    obtain hc | rfl | rfl := h.mem c List.mem_cons_self
    · exact .inl hc
    · exact absurd (h.comma [] more rfl).before hnil
    · have hdecimal := h.decimal
      rw [List.filter_cons_of_pos (by decide)] at hdecimal
      obtain ⟨d, more', hfilter, hd⟩ := hdecimal.of_point
      cases more with
      | nil => contradiction
      | cons e more =>
        by_cases he : e = ','
        · subst he
          exact absurd (h.comma ['.'] more rfl).before hsingle
        · rw [List.filter_cons_of_pos (by simpa using he)] at hfilter
          obtain ⟨rfl, -⟩ := List.cons.inj hfilter
          exact .inr ⟨rfl, e, more, rfl, hd⟩

/-- **Nothing is selected** exactly where no number starts. -/
theorem literal?_eq_none_iff :
    literal? cs = none ↔ ∀ text rest, cs = text ++ rest → ¬ IsNumber text rest := by
  constructor
  · rintro hnone text rest rfl hnumber
    obtain ⟨c, more, rfl, hdigit | ⟨rfl, d, more', rfl, hdigit⟩⟩ := hnumber.eq_cons
    · rw [isDigit_of_literal?_eq_none hnone] at hdigit
      contradiction
    · rw [isDigit_of_literal?_point_eq_none hnone] at hdigit
      contradiction
  · intro hnone
    rw [Option.eq_none_iff_forall_ne_some]
    rintro ⟨text, rest⟩ hsome
    exact hnone text rest (append_of_literal? hsome).symm (isNumber_of_literal? hsome)

/-- **The longest number is selected.** -/
theorem length_le_of_literal? (h : literal? cs = some (text, rest)) {text' rest' : List Char}
    (hcs : cs = text' ++ rest') (hnumber : IsNumber text' rest') : text'.length ≤ text.length := by
  obtain ⟨hdigit, hpoint, hgroup⟩ := ends_of_literal? h
  rw [← append_of_literal? h] at hcs
  obtain ⟨more, rfl, hrest⟩ | ⟨more, rfl, -⟩ := List.append_eq_append_iff.mp hcs
  · cases more with
    | nil => rw [List.append_nil]
    | cons c more =>
      exfalso
      subst hrest
      have hc := hnumber.mem c (List.mem_append_right text List.mem_cons_self)
      obtain hc | rfl | rfl := hc
      · rw [hdigit c rfl] at hc
        contradiction
      · have hcomma := hnumber.comma text more rfl
        have hstarts := hcomma.isGroup
        rw [hgroup hcomma.before (more ++ rest') rfl] at hstarts
        contradiction
      · have hcount := hnumber.point
        have htext : 0 < text.count '.' := List.count_pos_iff.mpr (hpoint rfl)
        rw [List.count_append, List.count_cons_self] at hcount
        omega
  · rw [List.length_append]
    exact Nat.le_add_right _ _

/-- A number has one byte for each character. -/
theorem IsNumber.byteLength_eq (h : IsNumber text rest) : byteLength text = text.length := by
  have hbytes : ∀ c ∈ text, c.utf8Size = 1 := by
    intro c hc
    obtain hdigit | rfl | rfl := h.mem c hc
    · have hcode := toNat_of_isDigit hdigit
      refine Char.utf8Size_eq_one_iff.mpr (UInt32.le_iff_toNat_le.mpr ?_)
      show c.toNat ≤ 127
      omega
    · rfl
    · rfl
  clear h
  induction text with
  | nil => rfl
  | cons c text ih =>
    obtain ⟨hc, htext⟩ := List.forall_mem_cons.mp hbytes
    rw [Formula.byteLength_cons, hc, ih htext, List.length_cons, Nat.add_comm]

end Literal

namespace Formula

open Literal (IsDecimal IsNumber)

variable {α : Type} [Numeral α]

/-- **Every number of a text can be read.** At each place of a text, nothing is selected exactly
where no number starts, and otherwise the longest number that starts there. Digits with at most one
point have a value, commas aside, and so no text is rejected because a number in it has none. -/
theorem selected_number_isRead :
    (∀ cs, Literal.literal? cs = none ↔ ∀ text rest, cs = text ++ rest → ¬ IsNumber text rest) ∧
    (∀ cs text rest, Literal.literal? cs = some (text, rest) →
      cs = text ++ rest ∧ byteLength text = text.length ∧ IsNumber text rest ∧
      ∀ text' rest', cs = text' ++ rest' → IsNumber text' rest' → text'.length ≤ text.length) ∧
    (∀ text, (Literal.value? (α := α) text).isSome ↔ IsDecimal (text.filter (· != ','))) ∧
    ∀ (maxDepth : Nat) (text number : String) (index : Nat),
      parse (α := α) maxDepth text ≠ .error (.invalidNumber number index) ∧
      parseFunction (α := α) maxDepth text ≠ .error (.invalidNumber number index) := by
  have hparse (maxDepth : Nat) (text number : String) (index : Nat) :
      parse (α := α) maxDepth text ≠ .error (.invalidNumber number index) := by
    intro h
    -- there is no place in a text where this error could stand
    obtain ⟨_, _, -, -, hat⟩ := isLocatedIn_of_parseChars h index rfl
    exact hat
  refine ⟨fun cs => Literal.literal?_eq_none_iff, fun cs text rest h => ?_,
    Literal.value?_isSome_iff, fun maxDepth text number index => ⟨hparse _ _ _ _, fun h => ?_⟩⟩
  · have hnumber := Literal.isNumber_of_literal? h
    exact ⟨(Literal.append_of_literal? h).symm, hnumber.byteLength_eq, hnumber,
      fun text' rest' => Literal.length_le_of_literal? h⟩
  · cases hread : parse (α := α) maxDepth text with
    | ok e =>
      rw [parseFunction, hread] at h
      contradiction
    | error err =>
      rw [parseFunction, hread] at h
      obtain rfl := Except.error.inj h
      exact hparse _ _ _ _ hread

/-- Thousands with a fraction, and a point that starts no number. -/
theorem selected_number_isRead_of_thousands :
    let text := "12,345.5".toList
    Literal.literal? (text ++ [')']) = some (text, [')']) ∧ IsNumber text [')'] ∧
      Literal.literal? ['.'] = none ∧ ¬ IsNumber ['.'] [] := by
  intro text
  obtain ⟨hnone, hsome, -, -⟩ := selected_number_isRead (α := Binary64)
  have hpoint : Literal.literal? ['.'] = none := by decide
  have hselected : Literal.literal? (text ++ [')']) = some (text, [')']) := by decide
  obtain ⟨-, -, hnumber, -⟩ := hsome _ _ _ hselected
  exact ⟨hselected, hnumber, hpoint, (hnone ['.']).mp hpoint ['.'] [] rfl⟩

end Formula

end SymbolicCalculus
