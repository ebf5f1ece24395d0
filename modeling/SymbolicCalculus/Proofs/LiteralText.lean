import Mathlib.Data.List.Basic
import Mathlib.Data.List.TakeWhile
import SymbolicCalculus.Formula.Literal

/-!
# Numbers read again

A number that was read from a text is read again wherever its characters stand before something that
cannot extend it: `IsLiteral.append`. Its commas stay part of it, since each of them is followed by
exactly three digits.
-/

namespace SymbolicCalculus.Literal

/-- No digit stands at the start. -/
def StartsWithoutDigit (cs : List Char) : Prop :=
  ∀ c ∈ cs.head?, c.isDigit = false

/-- No comma with exactly three digits stands at the start. -/
def StartsWithoutGroup (cs : List Char) : Prop :=
  ∀ rest, cs = ',' :: rest → isGroup rest = false

/-- What may follow a number without becoming part of it. -/
structure EndsNumber (cs : List Char) : Prop where
  digit : StartsWithoutDigit cs
  group : StartsWithoutGroup cs
  point : '.' ∉ cs.head?

theorem EndsNumber.nil : EndsNumber [] :=
  ⟨nofun, nofun, nofun⟩

theorem startsWithoutDigit_cons {c : Char} {cs : List Char} (h : c.isDigit = false) :
    StartsWithoutDigit (c :: cs) := by
  rintro d ⟨rfl⟩
  exact h

theorem startsWithoutGroup_cons {c : Char} {cs : List Char} (h : c ≠ ',') :
    StartsWithoutGroup (c :: cs) :=
  fun _ hrest => absurd (List.cons.inj hrest).1 h

/-- The text of a number, as it was read from some other text. -/
def IsLiteral (text : List Char) : Prop :=
  ∃ cs rest, literal? cs = some (text, rest)

/-! ## Digits -/

theorem takeWhile_append_digits {digits rest : List Char} (hdigits : digits.all Char.isDigit)
    (hrest : StartsWithoutDigit rest) : (digits ++ rest).takeWhile Char.isDigit = digits := by
  rw [List.takeWhile_append_of_pos (List.all_eq_true.mp hdigits)]
  cases rest with
  | nil => rw [List.takeWhile_nil, List.append_nil]
  | cons c rest => rw [List.takeWhile_cons_of_neg (by simp [hrest c rfl]), List.append_nil]

theorem dropWhile_append_digits {digits rest : List Char} (hdigits : digits.all Char.isDigit)
    (hrest : StartsWithoutDigit rest) : (digits ++ rest).dropWhile Char.isDigit = rest := by
  rw [List.dropWhile_append_of_pos (List.all_eq_true.mp hdigits)]
  cases rest with
  | nil => rfl
  | cons c rest => rw [List.dropWhile_cons_of_neg (by simp [hrest c rfl])]

/-- Digits at the start of a text end before what starts without one. -/
theorem takeWhile_append_of_startsWithoutDigit (cs : List Char) {tail : List Char}
    (htail : StartsWithoutDigit tail) :
    (cs ++ tail).takeWhile Char.isDigit = cs.takeWhile Char.isDigit := by
  induction cs with
  | nil =>
    have h : ([] ++ tail).takeWhile Char.isDigit = [] := takeWhile_append_digits rfl htail
    exact h
  | cons c cs ih =>
    rw [List.cons_append]
    by_cases hc : c.isDigit
    · rw [List.takeWhile_cons_of_pos hc, List.takeWhile_cons_of_pos hc, ih]
    · rw [List.takeWhile_cons_of_neg hc, List.takeWhile_cons_of_neg hc]

theorem all_isDigit_takeWhile (cs : List Char) : (cs.takeWhile Char.isDigit).all Char.isDigit :=
  List.all_takeWhile

theorem startsWithoutDigit_dropWhile (cs : List Char) :
    StartsWithoutDigit (cs.dropWhile Char.isDigit) := by
  intro c hc
  have := List.head?_dropWhile_not Char.isDigit cs
  rw [Option.mem_def.mp hc] at this
  simpa using this

/-! ## Groups of thousands -/

theorem isGroup_iff {cs : List Char} :
    isGroup cs ↔ ∃ digits rest, cs = digits ++ rest ∧ digits.length = 3 ∧
      digits.all Char.isDigit ∧ StartsWithoutDigit rest := by
  rw [isGroup, beq_iff_eq]
  constructor
  · intro h
    exact ⟨cs.takeWhile Char.isDigit, cs.dropWhile Char.isDigit,
      List.takeWhile_append_dropWhile.symm, h, all_isDigit_takeWhile cs,
      startsWithoutDigit_dropWhile cs⟩
  · rintro ⟨digits, rest, rfl, hlen, hdigits, hrest⟩
    rw [takeWhile_append_digits hdigits hrest, hlen]

theorem all_isDigit_of_isGroup {a b c : Char} {rest : List Char}
    (h : isGroup (a :: b :: c :: rest)) : [a, b, c].all Char.isDigit := by
  obtain ⟨digits, rest', heq, hlen, hdigits, -⟩ := isGroup_iff.mp h
  obtain ⟨x, y, z, rfl⟩ := List.length_eq_three.mp hlen
  obtain ⟨rfl, rfl, rfl, -⟩ : a = x ∧ b = y ∧ c = z ∧ rest = rest' := by simpa using heq
  exact hdigits

/-- Where the digits of a group end does not depend on what comes after. -/
theorem isGroup_append {a b c : Char} {rest tail : List Char}
    (h : isGroup (a :: b :: c :: rest)) (htail : StartsWithoutDigit tail) :
    isGroup (a :: b :: c :: tail) :=
  isGroup_iff.mpr ⟨[a, b, c], tail, rfl, rfl, all_isDigit_of_isGroup h, htail⟩

theorem isGroup_append_eq (cs : List Char) {tail : List Char} (htail : StartsWithoutDigit tail) :
    isGroup (cs ++ tail) = isGroup cs := by
  rw [isGroup, isGroup, takeWhile_append_of_startsWithoutDigit cs htail]

theorem groups_eq_nil {cs : List Char} (h : StartsWithoutGroup cs) : groups cs = ([], cs) := by
  unfold groups
  split
  · next a b c rest =>
    rw [if_neg (by simp [h (a :: b :: c :: rest) rfl])]
  · rfl

/-- Groups start with a comma. -/
theorem startsWithoutDigit_groups_append (cs : List Char) {tail : List Char}
    (htail : StartsWithoutDigit tail) :
    StartsWithoutDigit ((groups cs).1 ++ tail) := by
  unfold groups
  split
  · split
    · exact startsWithoutDigit_cons (by decide)
    · exact htail
  · exact htail

theorem groups_append {cs tail : List Char} (hdigit : StartsWithoutDigit tail)
    (hgroup : StartsWithoutGroup tail) :
    groups ((groups cs).1 ++ tail) = ((groups cs).1, tail) := by
  fun_induction groups cs with
  | case1 a b c rest h more rest' hr ih =>
    rw [hr] at ih
    have hmore : StartsWithoutDigit (more ++ tail) := by
      have := startsWithoutDigit_groups_append rest hdigit
      rwa [hr] at this
    rw [List.cons_append, List.cons_append, List.cons_append, List.cons_append, groups,
      if_pos (isGroup_append h hmore), ih]
  | case2 => exact groups_eq_nil hgroup
  | case3 => exact groups_eq_nil hgroup

/-! ## Numbers -/

theorem integral_append {cs tail : List Char} (hdigit : StartsWithoutDigit tail)
    (hgroup : StartsWithoutGroup tail) :
    integral ((integral cs).1 ++ tail) = ((integral cs).1, tail) := by
  have hdigits := all_isDigit_takeWhile cs
  unfold integral
  dsimp only
  split
  · next hlen =>
    have hmore : StartsWithoutDigit ((groups (cs.dropWhile Char.isDigit)).1 ++ tail) :=
      startsWithoutDigit_groups_append _ hdigit
    rw [List.append_assoc, takeWhile_append_digits hdigits hmore,
      dropWhile_append_digits hdigits hmore, if_pos hlen, groups_append hdigit hgroup]
  · next hlen =>
    rw [takeWhile_append_digits hdigits hdigit, dropWhile_append_digits hdigits hdigit,
      if_neg hlen]

theorem fraction_eq_nil {cs : List Char} (h : '.' ∉ cs.head?) : fraction cs = ([], cs) := by
  unfold fraction
  split
  · exact absurd rfl h
  · rfl

theorem fraction_point_append (rest : List Char) {tail : List Char}
    (hdigit : StartsWithoutDigit tail) :
    fraction ((fraction ('.' :: rest)).1 ++ tail) = ((fraction ('.' :: rest)).1, tail) := by
  have hdigits := all_isDigit_takeWhile rest
  rw [fraction, List.cons_append, fraction, takeWhile_append_digits hdigits hdigit,
    dropWhile_append_digits hdigits hdigit]

theorem fraction_append {cs tail : List Char} (hdigit : StartsWithoutDigit tail)
    (hpoint : '.' ∉ tail.head?) :
    fraction ((fraction cs).1 ++ tail) = ((fraction cs).1, tail) := by
  by_cases hcs : ∃ rest, cs = '.' :: rest
  · obtain ⟨rest, rfl⟩ := hcs
    exact fraction_point_append rest hdigit
  · have hnil : fraction cs = ([], cs) := fraction_eq_nil fun hhead => by
      obtain ⟨rest, rfl⟩ := List.head?_eq_some_iff.mp hhead
      exact hcs ⟨rest, rfl⟩
    rw [hnil]
    exact fraction_eq_nil hpoint

/-- A fraction starts with its point, and so continues neither digits nor groups. -/
theorem endsIntegral_fraction_append (cs : List Char) {tail : List Char}
    (htail : EndsNumber tail) :
    StartsWithoutDigit ((fraction cs).1 ++ tail) ∧
      StartsWithoutGroup ((fraction cs).1 ++ tail) := by
  unfold fraction
  split
  · exact ⟨startsWithoutDigit_cons (by decide), startsWithoutGroup_cons (by decide)⟩
  · exact ⟨htail.digit, htail.group⟩

/-- A number is read again where neither its digits and groups nor its fraction go on. -/
theorem literal?_append {cs text rest tail : List Char} (h : literal? cs = some (text, rest))
    (hintegral : StartsWithoutDigit ((fraction (integral cs).2).1 ++ tail) ∧
      StartsWithoutGroup ((fraction (integral cs).2).1 ++ tail))
    (hfraction : fraction ((fraction (integral cs).2).1 ++ tail) =
      ((fraction (integral cs).2).1, tail)) :
    literal? (text ++ tail) = some (text, tail) := by
  unfold literal? at h
  dsimp only at h
  split at h
  · contradiction
  · next hne =>
    obtain ⟨rfl, -⟩ : _ ∧ _ := by simpa using h
    rw [literal?, List.append_assoc, integral_append hintegral.1 hintegral.2]
    dsimp only
    rw [hfraction, if_neg hne]

/-- **A number is read again** where nothing that could extend it follows. -/
theorem IsLiteral.append {text tail : List Char} (h : IsLiteral text) (htail : EndsNumber tail) :
    literal? (text ++ tail) = some (text, tail) := by
  obtain ⟨cs, rest, hcs⟩ := h
  exact literal?_append hcs (endsIntegral_fraction_append _ htail)
    (fraction_append htail.digit htail.point)

/-- A number starts with a digit or with a point. -/
theorem IsLiteral.eq_cons {text : List Char} (h : IsLiteral text) :
    ∃ c rest, text = c :: rest ∧ (c.isDigit = true ∨ c = '.') := by
  obtain ⟨cs, rest, hcs⟩ := h
  obtain ⟨c, text, rfl⟩ := List.exists_cons_of_ne_nil (ne_nil_of_literal? hcs)
  refine ⟨c, text, rfl, ?_⟩
  obtain rfl := append_of_literal? hcs
  by_cases hdigit : c.isDigit = true
  · exact .inl hdigit
  · by_cases hpoint : c = '.'
    · exact .inr hpoint
    · -- neither digits nor a fraction are read, so there is no number
      have hwhole : integral (c :: text ++ rest) = ([], c :: text ++ rest) := by
        simp [integral, hdigit]
      have hplaces : fraction (c :: text ++ rest) = ([], c :: text ++ rest) :=
        fraction_eq_nil (by simpa using hpoint)
      rw [literal?, hwhole] at hcs
      dsimp only at hcs
      rw [hplaces] at hcs
      contradiction

theorem all_groups (cs : List Char) :
    ∀ c ∈ (groups cs).1, c.isDigit = true ∨ c = ',' := by
  fun_induction groups cs with
  | case1 a b c rest h more rest' hr ih =>
    have hdigits := all_isDigit_of_isGroup h
    rw [hr] at ih
    intro d hd
    rcases List.mem_cons.mp hd with rfl | hd
    · exact .inr rfl
    · rcases List.mem_append.mp (show d ∈ [a, b, c] ++ more from hd) with hd | hd
      · exact .inl (List.all_eq_true.mp hdigits d hd)
      · exact ih d hd
  | case2 => exact List.forall_mem_nil _
  | case3 => exact List.forall_mem_nil _

/-- The parts of a number: digits, groups, and a point with digits. Without digits in front there
are no groups, and digits behind the point. -/
theorem IsLiteral.eq_append {text : List Char} (h : IsLiteral text) :
    ∃ digits cs places, text = digits ++ ((groups cs).1 ++ places) ∧ digits.all Char.isDigit ∧
      (places = [] ∨ ∃ ds, places = '.' :: ds ∧ ds.all Char.isDigit) ∧
      (digits = [] → (groups cs).1 = [] ∧ 2 ≤ places.length) := by
  obtain ⟨cs, rest, hcs⟩ := h
  have hplaces : ∀ ds, (fraction ds).1 = [] ∨
      ∃ ds', (fraction ds).1 = '.' :: ds' ∧ ds'.all Char.isDigit := by
    intro ds
    fun_cases fraction ds with
    | case1 rest => exact .inr ⟨_, rfl, all_isDigit_takeWhile rest⟩
    | case2 => exact .inl rfl
  have hwhole : ∃ digits ds, (integral cs).1 = digits ++ (groups ds).1 ∧
      digits.all Char.isDigit ∧ (digits = [] → (groups ds).1 = []) := by
    unfold integral
    dsimp only
    split
    · next hlen => exact ⟨_, _, rfl, all_isDigit_takeWhile cs, fun hnil => by simp [hnil] at hlen⟩
    · exact ⟨_, [], (List.append_nil _).symm, all_isDigit_takeWhile cs, fun _ => rfl⟩
  unfold literal? at hcs
  dsimp only at hcs
  split at hcs
  · contradiction
  · next hne =>
    obtain ⟨rfl, -⟩ : _ ∧ _ := by simpa using hcs
    obtain ⟨digits, ds, heq, hdigits, hgroups⟩ := hwhole
    refine ⟨digits, ds, _, by rw [heq, List.append_assoc], hdigits, hplaces _, fun hnil => ?_⟩
    have hempty : (integral cs).1 = [] := by rw [heq, hnil, hgroups hnil, List.append_nil]
    refine ⟨hgroups hnil, ?_⟩
    simp only [hempty, List.isEmpty_nil, Bool.true_and, decide_eq_true_eq] at hne
    omega

/-- A number is made of digits, commas and points. -/
theorem IsLiteral.mem {text : List Char} (h : IsLiteral text) {c : Char} (hc : c ∈ text) :
    c.isDigit = true ∨ c = ',' ∨ c = '.' := by
  obtain ⟨digits, cs, places, rfl, hdigits, hplaces, -⟩ := h.eq_append
  rcases List.mem_append.mp hc with hc | hc
  · exact .inl (List.all_eq_true.mp hdigits c hc)
  rcases List.mem_append.mp hc with hc | hc
  · exact (all_groups cs c hc).imp_right .inl
  · rcases hplaces with rfl | ⟨ds, rfl, hds⟩
    · contradiction
    · rcases List.mem_cons.mp hc with rfl | hc
      · exact .inr (.inr rfl)
      · exact .inl (List.all_eq_true.mp hds c hc)

theorem all_integral (cs : List Char) : ∀ c ∈ (integral cs).1, c.isDigit = true ∨ c = ',' := by
  have hdigits : ∀ c ∈ cs.takeWhile Char.isDigit, c.isDigit = true ∨ c = ',' :=
    fun c hc => .inl (List.all_eq_true.mp (all_isDigit_takeWhile cs) c hc)
  unfold integral
  dsimp only
  split
  · exact List.forall_mem_append.mpr ⟨hdigits, all_groups _⟩
  · exact hdigits

/-- A number that has a point already goes on only with digits. -/
theorem IsLiteral.append_of_point {text tail : List Char} (h : IsLiteral text)
    (hpoint : '.' ∈ text) (htail : StartsWithoutDigit tail) :
    literal? (text ++ tail) = some (text, tail) := by
  obtain ⟨cs, rest, hcs⟩ := h
  obtain ⟨ds, hds⟩ : ∃ ds, (integral cs).2 = '.' :: ds := by
    by_contra hnone
    have hplaces : fraction (integral cs).2 = ([], (integral cs).2) := fraction_eq_nil fun hhead =>
      hnone (List.head?_eq_some_iff.mp hhead)
    have htext : text = (integral cs).1 := by
      simp only [literal?, hplaces, List.append_nil] at hcs
      split at hcs
      · contradiction
      · exact (Prod.ext_iff.mp (Option.some.inj hcs)).1.symm
    rcases all_integral cs '.' (htext ▸ hpoint) with h | h <;> contradiction
  refine literal?_append hcs ?_ ?_
  · rw [hds, fraction]
    exact ⟨startsWithoutDigit_cons (by decide), startsWithoutGroup_cons (by decide)⟩
  · rw [hds]
    exact fraction_point_append ds htail

theorem isDigit_of_literal?_eq_none {c : Char} {rest : List Char}
    (h : literal? (c :: rest) = none) : c.isDigit = false := by
  cases hc : c.isDigit with
  | false => rfl
  | true =>
    have hne : (integral (c :: rest)).1 ≠ [] := by
      unfold integral
      simp only [List.takeWhile_cons_of_pos hc]
      split <;> simp
    simp [literal?, hne] at h

theorem isDigit_of_literal?_point_eq_none {c : Char} {rest : List Char}
    (h : literal? ('.' :: c :: rest) = none) : c.isDigit = false := by
  cases hc : c.isDigit with
  | false => rfl
  | true =>
    have hwhole : integral ('.' :: c :: rest) = ([], '.' :: c :: rest) := by
      simp [integral]
    simp [literal?, hwhole, fraction, List.takeWhile_cons_of_pos hc] at h

theorem integral_of_digits {whole rest : List Char} (hwhole : whole.all Char.isDigit)
    (hdigit : StartsWithoutDigit rest) (hgroup : StartsWithoutGroup rest) :
    integral (whole ++ rest) = (whole, rest) := by
  unfold integral
  dsimp only
  rw [takeWhile_append_digits hwhole hdigit, dropWhile_append_digits hwhole hdigit,
    groups_eq_nil hgroup, List.append_nil, ite_self]

/-- Digits are a number. -/
theorem isLiteral_of_digits {whole : List Char} (hne : whole ≠ [])
    (hwhole : whole.all Char.isDigit) : IsLiteral whole := by
  refine ⟨whole, [], ?_⟩
  have h := integral_of_digits hwhole EndsNumber.nil.digit EndsNumber.nil.group
  rw [List.append_nil] at h
  simp [literal?, h, fraction, hne]

/-- Digits with a point and digits are a number. -/
theorem isLiteral_of_decimal {whole places : List Char} (hne : whole ≠ [])
    (hwhole : whole.all Char.isDigit) (hplaces : places.all Char.isDigit) :
    IsLiteral (whole ++ '.' :: places) := by
  refine ⟨whole ++ '.' :: places, [], ?_⟩
  have hwhole' : integral (whole ++ '.' :: places) = (whole, '.' :: places) :=
    integral_of_digits hwhole (startsWithoutDigit_cons (by decide))
      (startsWithoutGroup_cons (by decide))
  have hplaces' : fraction ('.' :: places) = ('.' :: places, []) := by
    have htake := takeWhile_append_digits hplaces EndsNumber.nil.digit
    have hdrop := dropWhile_append_digits hplaces EndsNumber.nil.digit
    rw [List.append_nil] at htake hdrop
    rw [fraction, htake, hdrop]
  rw [literal?, hwhole']
  dsimp only
  rw [hplaces', if_neg (by simp [hne])]

/-! ## Values -/

/-- Commas do not count. -/
theorem value?_filter {α : Type} [Numeral α] (text : List Char) :
    value? (α := α) (text.filter (· != ',')) = value? text := by
  rw [value?, value?, List.filter_filter]
  simp only [Bool.and_self]

theorem ne_comma_of_isDigit {c : Char} (h : c.isDigit = true) : (c != ',') = true := by
  simp only [bne_iff_ne, ne_eq]
  rintro rfl
  contradiction

theorem filter_digits {digits : List Char} (h : digits.all Char.isDigit) :
    digits.filter (· != ',') = digits :=
  List.filter_eq_self.mpr fun c hc => ne_comma_of_isDigit (List.all_eq_true.mp h c hc)

/-- Digits with at most one point, on one side of which there are digits: `12`, `12.`, `.5` or
`12.5`. -/
inductive IsDecimal : List Char → Prop
  | digits {whole : List Char} : whole ≠ [] → whole.all Char.isDigit → IsDecimal whole
  | point {whole places : List Char} :
    whole ≠ [] ∨ places ≠ [] → whole.all Char.isDigit → places.all Char.isDigit →
    IsDecimal (whole ++ '.' :: places)

/-- Decimals have a value, whatever commas are in them, and nothing else has. -/
theorem value?_isSome_iff {α : Type} [Numeral α] (text : List Char) :
    (value? (α := α) text).isSome ↔ IsDecimal (text.filter (· != ',')) := by
  rw [value?]
  generalize text.filter (· != ',') = ds
  constructor
  · intro h
    have hsplit : ds.takeWhile Char.isDigit ++ ds.dropWhile Char.isDigit = ds :=
      List.takeWhile_append_dropWhile
    have hwhole := all_isDigit_takeWhile ds
    split at h
    · next hrest =>
      rw [hrest, List.append_nil] at hsplit
      rw [← hsplit]
      refine .digits (fun hnil => ?_) hwhole
      simp [hnil] at h
    · next places hrest =>
      rw [hrest] at hsplit
      rw [← hsplit]
      split at h
      · next hplaces =>
        obtain ⟨hdigits, hne⟩ := Bool.and_eq_true_iff.mp hplaces
        refine .point ?_ hwhole hdigits
        rw [← not_and_or]
        rintro ⟨hnil, rfl⟩
        simp [hnil] at hne
      · contradiction
    · contradiction
  · rintro (⟨hne, hwhole⟩ | @⟨whole, places, hne, hwhole, hplaces⟩)
    · have htake := takeWhile_append_digits hwhole EndsNumber.nil.digit
      have hdrop := dropWhile_append_digits hwhole EndsNumber.nil.digit
      rw [List.append_nil] at htake hdrop
      rw [htake, hdrop]
      simp [hne]
    · have hpoint : StartsWithoutDigit ('.' :: places) := startsWithoutDigit_cons (by decide)
      have hsome : (whole.isEmpty && places.isEmpty) = false := by
        rcases hne with hne | hne <;> simp [hne]
      rw [takeWhile_append_digits hwhole hpoint, dropWhile_append_digits hwhole hpoint]
      simp only [hplaces, hsome, Bool.not_false, Bool.and_self, ↓reduceIte, Option.isSome_some]

/-- Without its commas, a number is a decimal. -/
theorem IsLiteral.isDecimal {text : List Char} (h : IsLiteral text) :
    IsDecimal (text.filter (· != ',')) := by
  obtain ⟨digits, cs, places, rfl, hdigits, hplaces, hempty⟩ := h.eq_append
  obtain ⟨more, hmore⟩ : ∃ more, more = (groups cs).1.filter (· != ',') := ⟨_, rfl⟩
  have hwhole : (digits ++ more).all Char.isDigit := by
    rw [List.all_append, hdigits, Bool.true_and, List.all_eq_true]
    intro c hc
    rw [hmore, List.mem_filter] at hc
    exact (all_groups cs c hc.1).resolve_right (by simpa using hc.2)
  have hfilter : (digits ++ ((groups cs).1 ++ places)).filter (· != ',') =
      (digits ++ more) ++ places.filter (· != ',') := by
    rw [List.filter_append, List.filter_append, filter_digits hdigits, ← hmore, List.append_assoc]
  rw [hfilter]
  rcases hplaces with rfl | ⟨ds, rfl, hds⟩
  · have hne : digits ++ more ≠ [] := by
      intro hnil
      have := (hempty (List.append_eq_nil_iff.mp hnil).1).2
      contradiction
    rw [List.filter_nil, List.append_nil]
    exact .digits hne hwhole
  · have hne : digits ++ more ≠ [] ∨ ds ≠ [] := by
      rw [← not_and_or]
      rintro ⟨hnil, rfl⟩
      have := (hempty (List.append_eq_nil_iff.mp hnil).1).2
      contradiction
    rw [List.filter_cons_of_pos (by decide), filter_digits hds]
    exact .point hne hwhole hds

/-- Every number has a value. -/
theorem IsLiteral.exists_value {α : Type} [Numeral α] {text : List Char} (h : IsLiteral text) :
    ∃ v : α, value? text = some v :=
  Option.isSome_iff_exists.mp ((value?_isSome_iff text).mpr h.isDecimal)

end SymbolicCalculus.Literal
