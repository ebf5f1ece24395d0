import SymbolicCalculus.Expansion
import SymbolicCalculus.Proofs.FiniteFactors
import SymbolicCalculus.Proofs.FormulaReading
import SymbolicCalculus.Proofs.ParsedFormula
import SymbolicCalculus.Reduction.Pass

/-!
# Which stages keep constants finite

From a text to a result, a constant that is not finite comes from one of two places: a number in the
text that is beyond the largest double, or two coefficients of a product whose product is. The other
rules, factoring, multiplying out and differentiation keep constants finite
(`Expr.isFinite_of_stages`). For a pass that is a property of its events, which say what was merged
(`Revision.MergesFinite`), and it goes from a step to the passes of a whole run.
-/

namespace SymbolicCalculus

/-! ## Revisions -/

namespace Revision

variable {r s : Revision Binary64} {a b e : Expr Binary64}

/-- All coefficients that were merged have finite products. -/
def MergesFinite (r : Revision Binary64) : Prop :=
  ∀ event ∈ r.events, ∀ k ∈ event.mergedCoefficient?, k.isFinite = true

instance (r : Revision Binary64) : Decidable r.MergesFinite :=
  inferInstanceAs (Decidable (∀ event ∈ r.events, ∀ k ∈ event.mergedCoefficient?, _))

theorem mergesFinite_unchanged (e : Expr Binary64) : (unchanged e).MergesFinite :=
  List.forall_mem_nil _

theorem mergesFinite_join {f : Expr Binary64 → Expr Binary64 → Expr Binary64} :
    (r.join s f).MergesFinite ↔ r.MergesFinite ∧ s.MergesFinite :=
  List.forall_mem_append

/-- What is finite stays finite, unless coefficients are merged that have no finite product. -/
def KeepsFinite (e : Expr Binary64) (r : Revision Binary64) : Prop :=
  e.IsFinite → r.MergesFinite → r.expr.IsFinite

theorem KeepsFinite.unchanged (e : Expr Binary64) : KeepsFinite e (.unchanged e) :=
  fun he _ => he

theorem KeepsFinite.wrap {f : Expr Binary64 → Expr Binary64} (h : KeepsFinite a r)
    (hf : ∀ x, (f x).IsFinite ↔ x.IsFinite) : KeepsFinite (f a) (r.wrap f) := by
  intro he hmerged
  exact (hf _).mpr (h ((hf a).mp he) hmerged)

theorem KeepsFinite.join {f : Expr Binary64 → Expr Binary64 → Expr Binary64}
    (ha : KeepsFinite a r) (hb : KeepsFinite b s)
    (hf : ∀ x y, (f x y).IsFinite ↔ x.IsFinite ∧ y.IsFinite) :
    KeepsFinite (f a b) (r.join s f) := by
  intro he hmerged
  obtain ⟨hea, heb⟩ := (hf a b).mp he
  obtain ⟨hr, hs⟩ := mergesFinite_join.mp hmerged
  exact (hf _ _).mpr ⟨ha hea hr, hb heb hs⟩

/-- Two revisions one after the other. -/
theorem KeepsFinite.trans (hr : KeepsFinite e r) (hs : KeepsFinite r.expr s) :
    KeepsFinite e ⟨s.expr, true, r.events ++ s.events⟩ := by
  intro he hmerged
  obtain ⟨hfirst, hsecond⟩ := List.forall_mem_append.mp hmerged
  exact hs (hr he hfirst) hsecond

end Revision

namespace Expr

open Revision (KeepsFinite)

variable {a b e r : Expr Binary64}

/-! ## Passes of a reduction -/

section passes

variable {part : Expr Binary64 → Revision Binary64}

theorem keepsFinite_reviseParts (hpart : ∀ x, KeepsFinite x (part x)) (e : Expr Binary64) :
    KeepsFinite e (e.reviseParts part) := by
  cases e with
  | param p => exact .unchanged _
  | const k => exact .unchanged _
  | binary op a b => exact (hpart a).join (hpart b) fun _ _ => isFinite_binary
  | neg a => exact (hpart a).wrap fun _ => isFinite_neg
  | call₀ f => exact .unchanged _
  | call₁ f x => exact (hpart x).wrap fun _ => isFinite_call₁
  | call₂ f x y => exact (hpart x).join (hpart y) fun _ _ => isFinite_call₂

theorem isPassInvariant_keepsFinite : IsPassInvariant KeepsFinite where
  unchanged := .unchanged
  rule h he hmerged := isFinite_of_replacement? h he (hmerged _ (List.mem_singleton_self _))
  parts := keepsFinite_reviseParts
  factored _ he _ := isFinite_factored he
  trans hr hs _ := hr.trans hs

theorem keepsFinite_reduceOnce (limits : Limits) (e : Expr Binary64) :
    KeepsFinite e (e.reduceOnce limits) :=
  isPassInvariant_keepsFinite.refine (limits.maxDepth + 1) e

/-- All passes of a run, where the events between them merge nothing. -/
theorem keepsFinite_reduceFrom (limits : Limits) (pass : Nat) (changed : Bool) (passes : Nat)
    (e : Expr Binary64) : KeepsFinite e (e.reduceFrom limits pass changed passes) := by
  induction passes generalizing pass changed e with
  | zero => exact fun he _ => he
  | succ passes ih =>
    unfold reduceFrom
    dsimp only
    split
    · exact fun he _ => he
    · intro he hmerged
      obtain ⟨hfirst, hrest⟩ := List.forall_mem_append.mp hmerged
      have hnext := keepsFinite_reduceOnce limits e he hfirst
      exact ih _ _ _ hnext (List.forall_mem_cons.mp hrest).2

theorem keepsFinite_reduce (limits : Limits) (e : Expr Binary64) :
    KeepsFinite e (e.reduce limits) :=
  keepsFinite_reduceFrom limits 0 false limits.maxPasses e

end passes

/-! ## Passes of an expansion -/

/-- A product that is distributed has finite constants exactly if the coefficient is finite that
was merged for it, if one was. -/
theorem isFinite_iff_of_distribute? (ha : a.IsFinite) (hb : b.IsFinite)
    (h : distribute? a b = some r) :
    r.IsFinite ↔ ∀ k ∈ (Event.distributed (product a b) r).mergedCoefficient?,
      k.isFinite = true := by
  unfold distribute? at h
  split at h
  case h_7 =>
    obtain ⟨k, u, rfl, hu⟩ := Rule.isFinite_of_mergeCoefficients? ha hb h
    simp [Event.mergedCoefficient?, hu]
  all_goals
    -- A factor is written twice or moved into a numerator, and no constant is new.
    obtain rfl := Option.some.inj h
    simp_all [Event.mergedCoefficient?]

/-- One pass of an expansion makes an infinite constant exactly if it merges coefficients to one,
since it does not look into what it made. -/
theorem isFinite_expandOnce_iff (he : e.IsFinite) :
    e.expandOnce.expr.IsFinite ↔ e.expandOnce.MergesFinite := by
  induction e with
  | param p => exact iff_of_true he (Revision.mergesFinite_unchanged _)
  | const k => exact iff_of_true he (Revision.mergesFinite_unchanged _)
  | binary op a b iha ihb =>
    obtain ⟨ha, hb⟩ := isFinite_binary.mp he
    rw [expandOnce]
    split
    · next r hr =>
      split at hr
      · next hop =>
        subst hop
        rw [Revision.MergesFinite, List.forall_mem_singleton]
        exact isFinite_iff_of_distribute? ha hb hr
      · contradiction
    · rw [Revision.mergesFinite_join, ← iha ha, ← ihb hb]
      exact isFinite_binary
  | neg a ih => exact ih (isFinite_neg.mp he)
  | call₀ f => exact iff_of_true he (Revision.mergesFinite_unchanged _)
  | call₁ f x ih => exact ih (isFinite_call₁.mp he)
  | call₂ f x y ihx ihy =>
    obtain ⟨hx, hy⟩ := isFinite_call₂.mp he
    rw [expandOnce, Revision.mergesFinite_join, ← ihx hx, ← ihy hy]
    exact isFinite_call₂

theorem keepsFinite_expandFrom (limits : Limits) (changed : Bool) (passes : Nat)
    (e : Expr Binary64) : KeepsFinite e (e.expandFrom limits changed passes) := by
  induction passes generalizing changed e with
  | zero => exact fun he _ => he
  | succ passes ih =>
    unfold expandFrom
    dsimp only
    split
    · intro he hmerged
      obtain ⟨hfirst, hrest⟩ := List.forall_mem_append.mp hmerged
      exact ih true _ ((isFinite_expandOnce_iff he).mpr hfirst) hrest
    · exact fun he _ => he

theorem keepsFinite_expand (limits : Limits) (e : Expr Binary64) :
    KeepsFinite e (e.expand limits) :=
  keepsFinite_expandFrom limits false limits.maxPasses e

/-! ## All stages -/

/-- What is parsed from a text has finite constants exactly if the numbers in it are finite. -/
theorem isFinite_iff_of_parse {maxDepth : Nat} {text : String}
    (h : Formula.parse maxDepth text = .ok e) :
    e.IsFinite ↔ ∀ token ∈ Token.ofChars text.toList, ∀ k : Binary64, token.value? = some k →
      k.isFinite = true := by
  rw [IsFinite, Formula.constants_of_parse h]
  simp only [List.mem_filterMap]
  constructor
  · exact fun h token hmem k hk => h k ⟨token, hmem, hk⟩
  · rintro h k ⟨token, hmem, hk⟩
    exact h token hmem k hk

/-- **Where infinite constants come from.** What is read from a text has finite constants exactly if
each number in the text is finite. Of an expression with finite constants, the factored form and
every derivative have finite constants; so has what a pass of a reduction makes of it, if each
product of coefficients is finite that the pass merges, and for a pass of an expansion this is
necessary, too. -/
theorem isFinite_of_stages (limits : Limits) :
    (∀ (maxDepth : Nat) (text : String) (e : Expr Binary64),
      Formula.parse maxDepth (Formula.normalize text) = .ok e →
      (e.IsFinite ↔ ∀ token ∈ Token.ofChars (Formula.normalize text).toList, ∀ k : Binary64,
        token.value? = some k → k.isFinite = true)) ∧
    ∀ e : Expr Binary64, e.IsFinite →
      ((e.reduceOnce limits).MergesFinite → (e.reduceOnce limits).expr.IsFinite) ∧
      e.factored.expr.IsFinite ∧
      (e.expandOnce.expr.IsFinite ↔ e.expandOnce.MergesFinite) ∧
      ∀ p d, e.derivative p = .ok d → d.IsFinite :=
  ⟨fun _ _ _ h => isFinite_iff_of_parse h,
    fun e he => ⟨keepsFinite_reduceOnce limits e he, isFinite_factored he,
      isFinite_expandOnce_iff he, fun _ _ h => isFinite_of_derivative he h⟩⟩

/-- The number twelve, and a product whose coefficients are merged to six. -/
theorem isFinite_of_stages_of_product :
    let number : Expr Binary64 :=
      sum (const (Numeral.ofDecimal 0 0)) (const (Numeral.ofDecimal 12 0))
    let text := Formula.normalize (String.ofList ['1', '2'])
    let e : Expr Binary64 := product (nat 2) (product (nat 3) (param "x"))
    Formula.parse 512 text = .ok number ∧
      (∀ token ∈ Token.ofChars text.toList, ∀ k : Binary64, token.value? = some k →
        k.isFinite = true) ∧
      e.IsFinite ∧ (e.reduceOnce {}).MergesFinite ∧ (e.reduceOnce {}).expr.IsFinite ∧
      e.factored.expr.IsFinite ∧ e.expandOnce.MergesFinite ∧ e.expandOnce.expr.IsFinite ∧
      ∃ d, e.derivative "x" = .ok d ∧ d.IsFinite := by
  intro number text e
  have hparse : Formula.parse 512 text = .ok number :=
    Formula.parse_number (Literal.isLiteral_of_digits (by decide) (by decide)) rfl (by decide)
  have he : e.IsFinite := by decide
  have hreduced : (e.reduceOnce {}).MergesFinite := by decide
  have hexpanded : e.expandOnce.MergesFinite := by decide
  obtain ⟨hread, hstages⟩ := isFinite_of_stages {}
  obtain ⟨hreduce, hfactor, hexpand, hderivative⟩ := hstages e he
  exact ⟨hparse, (hread 512 _ number hparse).mp (by decide), he, hreduced,
    hreduce hreduced, hfactor, hexpanded, hexpand.mpr hexpanded, _, rfl, hderivative "x" _ rfl⟩

/-- Ten to the two hundredth as a coefficient twice. -/
def scaledTwice : Expr Binary64 :=
  let k : Expr Binary64 := const (Numeral.ofDecimal (Nat.pow 10 200) 0)
  product k (product k (param "x"))

/-- A one with 309 zeros after it is beyond the largest double, and so is the product of the
coefficients of `scaledTwice`. -/
theorem not_isFinite_of_stages :
    (∃ e : Expr Binary64, Formula.parse 512
        (Formula.normalize (String.ofList ('1' :: List.replicate 309 '0'))) = .ok e ∧
      ¬ e.IsFinite) ∧
    scaledTwice.IsFinite ∧ ¬ (scaledTwice.reduceOnce {}).expr.IsFinite ∧
      ¬ scaledTwice.expandOnce.expr.IsFinite := by
  have hvalue : Literal.value? ('1' :: List.replicate 309 '0') =
      some (Numeral.ofDecimal (Nat.pow 10 309) 0 : Binary64) := by
    decide +kernel
  have hdigits : ('1' :: List.replicate 309 '0').all Char.isDigit := by decide +kernel
  have hliteral := Literal.isLiteral_of_digits (List.cons_ne_nil _ _) hdigits
  have hparse := Formula.parse_number hliteral hvalue (show 1 ≤ 512 by decide)
  refine ⟨⟨_, hparse, ?_⟩, ?_⟩
  · decide +kernel
  · decide +kernel

end Expr

end SymbolicCalculus
