import SymbolicCalculus.Proofs.FormulaReading
import SymbolicCalculus.Proofs.ParsedTree
import SymbolicCalculus.Proofs.SignedText
import SymbolicCalculus.Proofs.UnsignedDecimal

/-!
# The canonical text read back

`Expr.read_text`: the canonical text of an expression over doubles is read as the expression with
the signs taken apart from its constants. An expression that the parser itself built has no signs in
its constants, and so it comes back as it was.
-/

namespace SymbolicCalculus

/-! ## Expressions that the parser builds -/

theorem Literal.exists_ofDecimal {α : Type} [Numeral α] {text : List Char} {v : α}
    (h : Literal.value? text = some v) :
    ∃ digits places : Nat, v = Numeral.ofDecimal digits places := by
  unfold Literal.value? at h
  dsimp only at h
  split at h
  · split at h
    · contradiction
    · exact ⟨_, _, (Option.some.inj h).symm⟩
  · split at h
    · exact ⟨_, _, (Option.some.inj h).symm⟩
    · contradiction
  · contradiction

namespace Expr

/-- What the parser can build: the parameters are letters, the calls have as many arguments as they
accept, and no constant has a sign. -/
structure IsParsed (e : Expr Binary64) : Prop where
  letters : e.HasLetters
  calls : e.CallsAccepted
  unsigned : ∀ k ∈ e.constants, k.isNegative = false

theorem isParsed_of_accepted? {f : Builtin} {arguments : List (Expr Binary64)}
    {e : Expr Binary64} (he : accepted? f arguments = some e)
    (harguments : ∀ x ∈ arguments, x.IsParsed) : e.IsParsed := by
  rcases Formula.accepted?_cases he with ⟨x, rfl, hf, rfl⟩ | ⟨x, y, rfl, hf, rfl⟩
  · have hx := harguments x (List.mem_singleton_self x)
    exact ⟨hx.letters, ⟨hf, hx.calls⟩, hx.unsigned⟩
  · obtain ⟨hx, hy⟩ := List.forall_mem_cons.mp harguments
    replace hy := hy y (List.mem_singleton_self y)
    exact ⟨⟨hx.letters, hy.letters⟩, ⟨hf, hx.calls, hy.calls⟩,
      List.forall_mem_append.mpr ⟨hx.unsigned, hy.unsigned⟩⟩

theorem isClosed_isParsed : Formula.IsClosed IsParsed where
  param c hc := ⟨⟨c, hc, rfl⟩, trivial, List.forall_mem_nil _⟩
  const text v hv := by
    obtain ⟨digits, places, rfl⟩ := Literal.exists_ofDecimal hv
    refine ⟨trivial, trivial, fun k hk => ?_⟩
    obtain rfl := List.mem_singleton.mp hk
    exact Binary64.isNegative_ofDecimal digits places
  neg a ha := ⟨ha.letters, ha.calls, ha.unsigned⟩
  binary op a b ha hb := ⟨⟨ha.letters, hb.letters⟩, ⟨ha.calls, hb.calls⟩,
    List.forall_mem_append.mpr ⟨ha.unsigned, hb.unsigned⟩⟩
  call f arguments e he harguments := isParsed_of_accepted? he harguments

/-! ## Reading -/

variable {e : Expr Binary64} {maxDepth : Nat}

/-- The tokens of the canonical text are a phrase of the grammar. -/
theorem reads_chars (hletters : e.HasLetters) (hcalls : e.CallsAccepted)
    (hconstants : ∀ k ∈ e.constants, Numeral.IsWritten k) :
    Formula.Reads .sum (Formula.tokens e.chars) e.withoutSigns := by
  obtain ⟨-, ts, hlex, hsaid, hreads⟩ := isWritten_chars hletters hcalls hconstants
  have hchars := hlex [] Formula.endsWord_nil
  rw [List.append_nil, Token.ofChars_nil, List.append_nil] at hchars
  rwa [Formula.tokens, hchars, Token.withProducts_eq_self hsaid]

theorem read_text_eq_withoutSigns (hletters : e.HasLetters) (hcalls : e.CallsAccepted)
    (hconstants : ∀ k ∈ e.constants, Numeral.IsWritten k)
    (hheight : e.withoutSigns.height ≤ maxDepth) :
    Formula.read maxDepth e.text = .ok e.withoutSigns := by
  refine Formula.Reads.parse_parenthesize ?_ hheight
  rw [text, String.toList_ofList]
  exact reads_chars hletters hcalls hconstants

/-- **The canonical text is read back.** The decimal texts of the constants' magnitudes must read
back as these doubles. -/
theorem read_text (hfinite : ∀ k ∈ e.constants, k.isFinite = true)
    (hdecimal : ∀ k ∈ e.constants, Numeral.ReadsBack k.magnitude)
    (hheight : e.withoutSigns.height ≤ maxDepth) :
    (e.HasLetters → e.CallsAccepted → Formula.read maxDepth e.text = .ok e.withoutSigns) ∧
    ((∀ k ∈ e.constants, k.isNegative = false) → e.withoutSigns = e) ∧
    (∀ limit source, Formula.parse limit source = .ok e →
      Formula.read maxDepth e.text = .ok e) := by
  have hconstants (k : Binary64) (hk : k ∈ e.constants) : Numeral.IsWritten k :=
    Binary64.isWritten_of_readsBack (hfinite k hk) (hdecimal k hk)
  refine ⟨fun hletters hcalls => read_text_eq_withoutSigns hletters hcalls hconstants hheight,
    withoutSigns_eq_self, fun limit source hparse => ?_⟩
  have hparsed := isClosed_isParsed.of_parse hparse
  have hread := read_text_eq_withoutSigns hparsed.letters hparsed.calls hconstants hheight
  rwa [withoutSigns_eq_self hparsed.unsigned] at hread

/-- The text of `e` is `(-2.5)^x - log(2.5, b)`; the parser built `e'`. -/
theorem read_text_of_difference :
    let k : Binary64 := ⟨0xC004000000000000⟩
    let e : Expr Binary64 := .difference (.power (.const k) (.param "x"))
      (.call₂ .log (.const k.magnitude) (.param "b"))
    let e' : Expr Binary64 := .product (.const k.magnitude) (.neg (.param "x"))
    k.isFinite = true ∧ Numeral.ReadsBack k.magnitude ∧ e.HasLetters ∧ e.CallsAccepted ∧
      Formula.parse 512 "(2.5*(-x))" = .ok e' ∧
      Formula.read 512 e.text = .ok (.difference
        (.power (.neg (.const k.magnitude)) (.param "x"))
        (.call₂ .log (.const k.magnitude) (.param "b"))) ∧
      Formula.read 512 e'.text = .ok e' := by
  intro k e e'
  have hk : k.isFinite = true ∧ k.magnitude.isFinite = true := by decide
  have hmagnitude : k.magnitude.magnitude = k.magnitude := by decide
  have htext : Numeral.text k.magnitude = ['2', '.', '5'] := by decide
  have hvalue : Literal.value? ['2', '.', '5'] = some k.magnitude := by decide
  have hback : Numeral.ReadsBack k.magnitude :=
    ⟨⟨['2'], ['5'], by decide, by decide, by decide, .inr htext⟩, by rw [htext, hvalue]⟩
  have hletters : e.HasLetters :=
    ⟨⟨trivial, 'x', by decide, rfl⟩, trivial, 'b', by decide, rfl⟩
  have hcalls : e.CallsAccepted := ⟨⟨trivial, trivial⟩, rfl, trivial, trivial⟩
  have hterm : Term.Denotes (.binary .times (.number ['2', '.', '5']) (.neg (.letter 'x'))) e' :=
    .binary (.number (htext ▸ hback.isLiteral) hvalue) (.neg (.letter rfl))
  have hparse : Formula.parse 512 "(2.5*(-x))" = .ok e' :=
    Formula.parseChars_chars hterm (by decide)
  have hsigned : e.withoutSigns = .difference (.power (.neg (.const k.magnitude)) (.param "x"))
      (.call₂ .log (.const k.magnitude) (.param "b")) := by decide
  have hread : Formula.read 512 e.text = .ok e.withoutSigns := by
    refine (read_text ?_ ?_ (by decide)).1 hletters hcalls
    · rintro a (_ | ⟨_, _ | ⟨_, ⟨⟩⟩⟩)
      · exact hk.1
      · exact hk.2
    · rintro a (_ | ⟨_, _ | ⟨_, ⟨⟩⟩⟩)
      · exact hback
      · rwa [hmagnitude]
  have hread' : Formula.read 512 e'.text = .ok e' := by
    refine (read_text ?_ ?_ (by decide)).2.2 512 _ hparse
    · rintro a (_ | ⟨_, ⟨⟩⟩)
      exact hk.2
    · rintro a (_ | ⟨_, ⟨⟩⟩)
      rwa [hmagnitude]
  rw [hsigned] at hread
  exact ⟨hk.1, hback, hletters, hcalls, hparse, hread, hread'⟩

end Expr

end SymbolicCalculus
