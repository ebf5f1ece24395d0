import SymbolicCalculus.Operator
import SymbolicCalculus.Builtin

/-!
# Letters, digits and names

A character starts one kind of word only. A letter is a parameter by itself unless another letter
follows it, and a name before a parenthesis is a call, also with blanks between them.
-/

namespace SymbolicCalculus

/-! ## Characters -/

theorem toNat_of_isAlpha {c : Char} (h : c.isAlpha = true) :
    65 ≤ c.toNat ∧ c.toNat ≤ 90 ∨ 97 ≤ c.toNat ∧ c.toNat ≤ 122 := by
  rcases Bool.or_eq_true_iff.mp h with hupper | hlower
  · obtain ⟨hlow, hhigh⟩ := of_decide_eq_true hupper
    exact .inl ⟨UInt32.le_iff_toNat_le.mp hlow, UInt32.le_iff_toNat_le.mp hhigh⟩
  · obtain ⟨hlow, hhigh⟩ := Bool.and_eq_true_iff.mp hlower
    exact .inr ⟨UInt32.le_iff_toNat_le.mp (of_decide_eq_true hlow),
      UInt32.le_iff_toNat_le.mp (of_decide_eq_true hhigh)⟩

theorem toNat_of_isDigit {c : Char} (h : c.isDigit = true) : 48 ≤ c.toNat ∧ c.toNat ≤ 57 := by
  simpa [Char.isDigit, UInt32.le_iff_toNat_le] using h

/-- A letter is one byte long. -/
theorem utf8Size_of_isAlpha {c : Char} (h : c.isAlpha = true) : c.utf8Size = 1 := by
  have := toNat_of_isAlpha h
  refine Char.utf8Size_eq_one_iff.mpr (UInt32.le_iff_toNat_le.mpr ?_)
  show c.toNat ≤ 127
  omega

/-- A letter or a character of a number, which is neither a blank nor a symbol. -/
def IsWordChar (c : Char) : Prop :=
  c.isAlpha = true ∨ c.isDigit = true ∨ c = '.'

theorem IsWordChar.isBlank {c : Char} (h : IsWordChar c) : Text.isBlank c = false := by
  rcases h with h | h | rfl
  · have := toNat_of_isAlpha h
    simp [Text.isBlank]
    omega
  · have := toNat_of_isDigit h
    simp [Text.isBlank]
    omega
  · decide

theorem IsWordChar.ne {c : Char} (h : IsWordChar c) : c ≠ '(' ∧ c ≠ ')' ∧ c ≠ ',' := by
  refine ⟨?_, ?_, ?_⟩ <;> rintro rfl <;> rcases h with h | h | h <;> contradiction

theorem IsWordChar.ofSymbol? {c : Char} (h : IsWordChar c) : Operator.ofSymbol? c = none := by
  rw [Option.eq_none_iff_forall_ne_some]
  intro op hop
  obtain rfl := Operator.ofSymbol?_eq_some_iff.mp hop
  cases op <;> rcases h with h | h | h <;> contradiction

theorem isAlpha_of_isDigit {c : Char} (h : c.isDigit = true ∨ c = '.') : c.isAlpha = false := by
  rcases h with h | rfl
  · have := toNat_of_isDigit h
    cases hc : c.isAlpha with
    | false => rfl
    | true =>
      have := toNat_of_isAlpha hc
      omega
  · decide

theorem startsNumber_of_isAlpha {c : Char} (hc : c.isAlpha = true) :
    (c.isDigit || decide (c = '.')) = false := by
  cases h : c.isDigit || decide (c = '.') with
  | false => rfl
  | true =>
    have := isAlpha_of_isDigit (c := c) (by simpa using h)
    simp [hc] at this

/-! ## Blanks and symbols -/

namespace Text

theorem isDigit_of_isBlank {c : Char} (h : isBlank c = true) : c.isDigit = false := by
  cases hc : c.isDigit with
  | false => rfl
  | true => simp [IsWordChar.isBlank (.inr (.inl hc))] at h

theorem plain_of_isBlank {c : Char} (h : isBlank c = true) : c ≠ '(' ∧ c ≠ ')' ∧ c ≠ ',' := by
  refine ⟨?_, ?_, ?_⟩ <;> rintro rfl <;> simp [isBlank] at h

theorem skipBlanks_append {blanks rest : List Char} (h : blanks.all isBlank) :
    skipBlanks (blanks ++ '(' :: rest) = '(' :: rest := by
  rw [skipBlanks, List.dropWhile_append_of_pos (List.all_eq_true.mp h),
    List.dropWhile_cons_of_neg (by decide)]

theorem takeWhile_isBlank_append {blanks rest : List Char} (h : blanks.all isBlank) :
    (blanks ++ '(' :: rest).takeWhile isBlank = blanks := by
  rw [List.takeWhile_append_of_pos (List.all_eq_true.mp h),
    List.takeWhile_cons_of_neg (by decide), List.append_nil]

end Text

theorem Operator.utf8Size_symbol (op : Operator) : op.symbol.utf8Size = 1 := by
  cases op <;> rfl

theorem Operator.plain_symbol (op : Operator) :
    op.symbol ≠ '(' ∧ op.symbol ≠ ')' ∧ op.symbol ≠ ',' := by
  cases op <;> decide

/-! ## Names -/

namespace Builtin

/-- A name is called where blanks and a parenthesis follow it. -/
theorem called?_letters_append (f : Builtin) {blanks : List Char} (h : blanks.all Text.isBlank)
    (rest : List Char) :
    called? (f.letters ++ (blanks ++ '(' :: rest)) = some (f, blanks ++ '(' :: rest) := by
  have hstart : startOf? (f.letters ++ (blanks ++ '(' :: rest)) = some f := by
    cases f with
    | log =>
      -- the longer name goes on with a digit
      have hdigit : ['1', '0'].isPrefixOf (blanks ++ '(' :: rest) = false := by
        cases blanks with
        | nil => rfl
        | cons c blanks =>
          have hc : Text.isBlank c = true := List.all_eq_true.mp h c List.mem_cons_self
          have hne : '1' ≠ c := by
            rintro rfl
            contradiction
          simp [List.isPrefixOf, hne]
      simp [startOf?, all, letters, hdigit]
    | _ => simp [startOf?, all, letters]
  rw [called?, hstart]
  simp [Text.skipBlanks_append h]

theorem called?_letters (f : Builtin) (rest : List Char) :
    called? (f.letters ++ '(' :: rest) = some (f, '(' :: rest) :=
  @called?_letters_append f [] rfl rest

/-- A text that starts with a called name. -/
theorem eq_of_called? {cs afterName : List Char} {f : Builtin}
    (h : called? cs = some (f, afterName)) :
    ∃ blanks rest, cs = f.letters ++ (blanks ++ '(' :: rest) ∧ blanks.all Text.isBlank ∧
      afterName = blanks ++ '(' :: rest := by
  unfold called? at h
  split at h
  · contradiction
  next g hg =>
  dsimp only at h
  split at h
  · next hopen =>
    obtain ⟨rfl, hrest⟩ : g = f ∧ cs.drop g.letters.length = afterName := by simpa using h
    obtain ⟨k, rfl⟩ : g.letters <+: cs := by simpa using List.find?_some hg
    rw [List.drop_left] at hrest hopen
    subst hrest
    obtain ⟨rest, hrest⟩ : ∃ rest, Text.skipBlanks k = '(' :: rest :=
      List.head?_eq_some_iff.mp hopen
    have hk : k.takeWhile Text.isBlank ++ '(' :: rest = k := by
      rw [← hrest]
      exact List.takeWhile_append_dropWhile
    exact ⟨k.takeWhile Text.isBlank, rest, by rw [hk], List.all_takeWhile, hk.symm⟩
  · contradiction

/-- The name, the blanks and what is between the parentheses, as they are found after each other. -/
theorem exists_eq_of_called? {cs afterName : List Char} {f : Builtin}
    (h : called? cs = some (f, afterName)) :
    ∃ blanks rest, cs = f.letters ++ (blanks ++ '(' :: rest) ∧ blanks.all Text.isBlank ∧
      afterName.takeWhile Text.isBlank = blanks ∧ (Text.skipBlanks afterName).drop 1 = rest := by
  obtain ⟨blanks, rest, hcs, hblanks, rfl⟩ := eq_of_called? h
  refine ⟨blanks, rest, hcs, hblanks, Text.takeWhile_isBlank_append hblanks, ?_⟩
  rw [Text.skipBlanks_append hblanks, List.drop_one, List.tail_cons]

theorem letters_eq_cons (f : Builtin) : ∃ c cs, f.letters = c :: cs ∧ c.isAlpha = true := by
  cases f <;> exact ⟨_, _, rfl, rfl⟩

/-- Every name has at least two letters. -/
theorem called?_eq_none {c : Char} {rest : List Char} (h : ∀ d ∈ rest.head?, d.isAlpha = false) :
    called? (c :: rest) = none := by
  have hnone : startOf? (c :: rest) = none := by
    refine List.find?_eq_none.mpr fun f _ => ?_
    cases rest with
    | nil => cases f <;> simp [letters]
    | cons d rest =>
      have hd : d.isAlpha = false := h d rfl
      cases f <;> simp [letters] <;> rintro - rfl <;> contradiction
  rw [called?, hnone]

end Builtin

end SymbolicCalculus
