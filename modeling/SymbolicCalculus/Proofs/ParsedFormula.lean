import SymbolicCalculus.Proofs.GroupParsing
import SymbolicCalculus.Proofs.ParsedTree

/-!
# What the parser reads is a formula

A text that the parser reads, cut into tokens, is a sum of the grammar of formulas
(`Formula.exists_reads_of_derives`). As a formula it need not stand for the same expression, since
the parser knows no precedence. It does stand for one with the same constants, which are the values
of the numbers in the text (`Formula.constants_of_parse`).
-/

namespace SymbolicCalculus

namespace Nesting

theorem Separated.eq_of_one {inside cs : List Char} (h : Separated inside [cs]) : inside = cs := by
  cases h with
  | last => rfl
  | comma _ _ hnone => nomatch hnone

theorem Separated.eq_of_two {inside cs ds : List Char} (h : Separated inside [cs, ds]) :
    Literal.isGroup ds = false ∧ inside = cs ++ ',' :: ds := by
  cases h with
  | comma _ hgroup hlast =>
    obtain rfl := hlast.eq_of_one
    exact ⟨hgroup, rfl⟩

end Nesting

/-- The value of a number. -/
def Token.value? {α : Type} [Numeral α] : Token → Option α
  | number digits => Literal.value? digits
  | _ => none

namespace Formula

variable {α : Type} [Numeral α]

/-- The constants of a formula are the values of its numbers, from the left. -/
theorem Reads.constants_eq {phrase : Phrase} {ts : List Token} {e : Expr α}
    (h : Reads phrase ts e) : e.constants = ts.filterMap Token.value? := by
  induction h with
  | number h =>
    rw [Literal.value?_filter] at h
    simp [Expr.constants, Token.value?, h]
  | _ => simp_all [Expr.constants, List.filterMap_cons, Token.value?]

/-! ## One more operand -/

/-- An exponent after a phrase goes to the last operand of it. -/
theorem Reads.exists_power {phrase : Phrase} {ts us : List Token} {a b : Expr α}
    (h : Reads phrase ts a) (hphrase : phrase ≠ .primary) (hb : Reads .signed us b) :
    ∃ e : Expr α, Reads phrase (ts ++ .operator .power :: us) e := by
  induction h with
  | number | letter | group | call₁ | call₂ => contradiction
  | power_of_primary h _ => exact ⟨_, .power h hb⟩
  | power h _ _ ih =>
    obtain ⟨e, he⟩ := ih nofun
    rw [List.append_assoc]
    exact ⟨_, .power h he⟩
  | signed_of_power _ ih =>
    obtain ⟨e, he⟩ := ih nofun
    exact ⟨e, .signed_of_power he⟩
  | minus _ ih =>
    obtain ⟨e, he⟩ := ih nofun
    exact ⟨_, .minus he⟩
  | plus _ ih =>
    obtain ⟨e, he⟩ := ih nofun
    exact ⟨e, .plus he⟩
  | product_of_signed _ ih =>
    obtain ⟨e, he⟩ := ih nofun
    exact ⟨e, .product_of_signed he⟩
  | product hop h _ _ ih =>
    obtain ⟨e, he⟩ := ih nofun
    rw [List.append_assoc]
    exact ⟨_, .product hop h he⟩
  | sum_of_product _ ih =>
    obtain ⟨e, he⟩ := ih nofun
    exact ⟨e, .sum_of_product he⟩
  | sum hop h _ _ ih =>
    obtain ⟨e, he⟩ := ih nofun
    rw [List.append_assoc]
    exact ⟨_, .sum hop h he⟩

/-- A factor after a sum goes to the last product of it. -/
theorem Reads.exists_product {op : Operator} {ts us : List Token} {a b : Expr α}
    (hop : op.precedence = .multiplicative) (h : Reads .sum ts a) (hb : Reads .signed us b) :
    ∃ e : Expr α, Reads .sum (ts ++ .operator op :: us) e := by
  cases h with
  | sum_of_product h => exact ⟨_, .sum_of_product (.product hop h hb)⟩
  | sum hop' h h' =>
    rw [List.append_assoc]
    exact ⟨_, .sum hop' h (.product hop h' hb)⟩

/-- A sum goes on with every operator and an operand. -/
theorem Reads.exists_binary {ts us : List Token} {a b : Expr α} (h : Reads .sum ts a)
    (op : Operator) (hb : Reads .signed us b) :
    ∃ e : Expr α, Reads .sum (ts ++ .operator op :: us) e := by
  cases op with
  | plus | minus => exact ⟨_, .sum rfl h (.product_of_signed hb)⟩
  | times | divide => exact h.exists_product rfl hb
  | power => exact h.exists_power nofun hb

/-! ## Texts of phrases -/

namespace IsWritten

variable {phrase : Phrase} {cs ds : List Char} {a b e : Expr α}

theorem blankAfter {c : Char} (hc : Text.isBlank c = true) (h : IsWritten cs phrase e) :
    IsWritten (cs ++ [c]) phrase e := by
  obtain ⟨ts, hlex, hsaid, hreads⟩ := h
  refine ⟨ts, fun rest _ => ?_, hsaid, hreads⟩
  rw [List.append_assoc, List.singleton_append, hlex _ (endsWord_blank hc rest),
    Token.ofChars_blank hc]

theorem exists_binary (op : Operator) (ha : IsWritten cs .sum a) (hb : IsWritten ds .signed b) :
    ∃ e : Expr α, IsWritten (cs ++ op.symbol :: ds) .sum e ∧
      e.constants = a.constants ++ b.constants := by
  obtain ⟨ts, hlexa, hsaida, hreadsa⟩ := ha
  obtain ⟨us, hlexb, hsaidb, hreadsb⟩ := hb
  obtain ⟨e, he⟩ := hreadsa.exists_binary op hreadsb
  refine ⟨e, ⟨ts ++ .operator op :: us, fun rest hrest => ?_,
    Token.isChain_append_of_startsOperand rfl hsaida
      (Token.isChain_cons_of_endsOperand rfl hsaidb), he⟩, ?_⟩
  · rw [List.append_assoc, List.cons_append, hlexa _ (endsWord_symbol op _),
      Token.ofChars_operator, hlexb rest hrest, List.append_assoc, List.cons_append]
  · rw [he.constants_eq, hreadsa.constants_eq, hreadsb.constants_eq, List.filterMap_append]
    rfl

end IsWritten

/-- The phrase that a piece of a text is. -/
def Piece.phrase : Piece → Phrase
  | group => .sum
  | operand => .signed

/-- **What is derived is written as a formula**, with the same constants. -/
theorem Derives.exists_isWritten {piece : Piece} {n : Nat} {cs : List Char} {e : Expr α}
    (h : Derives piece n cs e) :
    ∃ e' : Expr α, IsWritten cs piece.phrase e' ∧ e'.constants = e.constants := by
  induction h with
  | operand _ ih =>
    obtain ⟨e, he, hconstants⟩ := ih
    exact ⟨e, he.sum_of_signed, hconstants⟩
  | operator op _ _ iha ihb =>
    obtain ⟨a, ha, hka⟩ := iha
    obtain ⟨b, hb, hkb⟩ := ihb
    rw [Expr.constants, ← hka, ← hkb]
    exact ha.exists_binary op hb
  | blankAfter hc _ ih =>
    obtain ⟨e, he, hconstants⟩ := ih
    exact ⟨e, he.blankAfter hc, hconstants⟩
  | blankBefore hc _ ih =>
    obtain ⟨e, he, hconstants⟩ := ih
    exact ⟨e, he.blankBefore hc, hconstants⟩
  | minus _ ih =>
    obtain ⟨e, he, hconstants⟩ := ih
    exact ⟨.neg e, he.sign .minus fun _ => .minus, hconstants⟩
  | plus _ ih =>
    obtain ⟨e, he, hconstants⟩ := ih
    exact ⟨e, he.sign .plus fun _ => .plus, hconstants⟩
  | parentheses _ ih =>
    obtain ⟨e, he, hconstants⟩ := ih
    exact ⟨e, he.group.signed_of_primary, hconstants⟩
  | @call _ f blanks inside arguments e hblanks _ hseparated he ih =>
    obtain ⟨_, hes, hf, rfl⟩ | ⟨_, _, hes, hf, rfl⟩ := accepted?_cases he
    · obtain ⟨x, rfl, rfl⟩ := List.map_eq_singleton_iff.mp hes
      obtain rfl := hseparated.eq_of_one
      obtain ⟨x', hx, hkx⟩ := ih x List.mem_cons_self
      exact ⟨_, (IsWritten.call₁ hf hblanks hx).signed_of_primary, hkx⟩
    · obtain ⟨x, _, rfl, rfl, hothers⟩ := List.map_eq_cons_iff.mp hes
      obtain ⟨y, rfl, rfl⟩ := List.map_eq_singleton_iff.mp hothers
      obtain ⟨hgroup, rfl⟩ := hseparated.eq_of_two
      obtain ⟨x', hx, hkx⟩ := ih x List.mem_cons_self
      obtain ⟨y', hy, hky⟩ := ih y (List.mem_cons_of_mem x List.mem_cons_self)
      refine ⟨_, (IsWritten.call₂ hf hblanks hgroup hx hy).signed_of_primary, ?_⟩
      rw [Expr.constants, Expr.constants, hkx, hky]
  | number hdigits hv => exact ⟨_, (IsWritten.number hdigits hv).signed_of_primary, rfl⟩
  | letter hc => exact ⟨_, (IsWritten.letter hc).signed_of_primary, rfl⟩

/-- **What the parser reads is a formula**, although not necessarily one that stands for the same
expression, but for one with the same constants. -/
theorem exists_reads_of_derives {n : Nat} {cs : List Char} {e : Expr α}
    (h : Derives .group n cs e) :
    ∃ e' : Expr α, Reads .sum (Token.ofChars cs) e' ∧ e'.constants = e.constants := by
  obtain ⟨e', ⟨ts, hlex, -, hreads⟩, hconstants⟩ := h.exists_isWritten
  have hts := hlex [] endsWord_nil
  rw [List.append_nil, Token.ofChars_nil, List.append_nil] at hts
  exact ⟨e', hts ▸ hreads, hconstants⟩

/-- The constants of an expression that was parsed are the values of the numbers in the text. -/
theorem constants_of_parse {maxDepth : Nat} {text : String} {e : Expr α}
    (h : parse maxDepth text = .ok e) :
    e.constants = (Token.ofChars text.toList).filterMap Token.value? := by
  obtain ⟨e', hreads, hconstants⟩ := exists_reads_of_derives ((parseChars_eq_ok_iff _ _ _).mp h)
  rw [← hconstants, hreads.constants_eq]

end Formula

end SymbolicCalculus
