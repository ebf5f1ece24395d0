import SymbolicCalculus.Expansion
import SymbolicCalculus.Proofs.DivisionValue
import SymbolicCalculus.Proofs.Passes
import SymbolicCalculus.Proofs.Rewriting

/-!
# Properties that a reduction keeps

A property that holds of a node exactly if it holds of the node's parts, and that holds of every
constant, is kept by whatever a reduction builds: by each rule, since a rule puts together what it
finds (`of_rewrites`), by common factors (`of_commonFactor?`) and quotients (`of_divideOut?`), and
so by each pass and by all of them (`of_reduce`), and by expansions (`of_expand`). An exponent or a
second argument may be held to another property of the kind. No law of arithmetic is used.
-/

namespace SymbolicCalculus.Expr

/-- `P` is decided by the parts of a node, where its exponent or second argument is held to `Q`. -/
structure IsLocal {α : Type} (P Q : Expr α → Prop) : Prop where
  const : ∀ k, P (const k)
  binary : ∀ {op a b}, op ≠ .power → (P (binary op a b) ↔ P a ∧ P b)
  power : ∀ {a n}, P (power a n) ↔ P a ∧ Q n
  neg : ∀ {a}, P (neg a) ↔ P a
  call₁ : ∀ {f x}, P (call₁ f x) → P x ∧ ∀ {x'}, P x' → P (call₁ f x')
  call₂ : ∀ {f x y}, P (call₂ f x y) →
    P x ∧ Q y ∧ ∀ {x' y'}, P x' → Q y' → P (call₂ f x' y')

namespace IsLocal

variable {α : Type} {P Q : Expr α → Prop}

section nodes

variable {a b : Expr α} (hP : IsLocal P Q)

include hP

theorem sum_iff : P (.sum a b) ↔ P a ∧ P b :=
  hP.binary (by decide)

theorem difference_iff : P (.difference a b) ↔ P a ∧ P b :=
  hP.binary (by decide)

theorem product_iff : P (.product a b) ↔ P a ∧ P b :=
  hP.binary (by decide)

theorem quotient_iff : P (.quotient a b) ↔ P a ∧ P b :=
  hP.binary (by decide)

theorem left {op : Operator} (h : P (.binary op a b)) : P a := by
  by_cases hop : op = .power
  · subst hop
    exact (hP.power.mp h).1
  · exact ((hP.binary hop).mp h).1

theorem right {op : Operator} (hop : op ≠ .power) (h : P (.binary op a b)) : P b :=
  ((hP.binary hop).mp h).2

theorem terms {e : Expr α} (he : P e) (h : e = .sum a b ∨ e = .difference a b) : P a ∧ P b := by
  rcases h with rfl | rfl
  · exact hP.sum_iff.mp he
  · exact hP.difference_iff.mp he

/-- What becomes of a node when its parts are revised. -/
theorem of_reviseParts {part : Expr α → Revision α} (hpart : ∀ x, P x → P (part x).expr)
    (hpart' : ∀ x, Q x → Q (part x).expr) {e : Expr α} (he : P e) :
    P (e.reviseParts part).expr := by
  cases e with
  | param p => exact he
  | const k => exact he
  | call₀ f => exact he
  | binary op a b =>
    by_cases hop : op = .power
    · subst hop
      obtain ⟨ha, hn⟩ := hP.power.mp he
      exact hP.power.mpr ⟨hpart a ha, hpart' b hn⟩
    · obtain ⟨ha, hb⟩ := (hP.binary hop).mp he
      exact (hP.binary hop).mpr ⟨hpart a ha, hpart b hb⟩
  | neg a => exact hP.neg.mpr (hpart a (hP.neg.mp he))
  | call₁ f x =>
    obtain ⟨hx, hcall⟩ := hP.call₁ he
    exact hcall (hpart x hx)
  | call₂ f x y =>
    obtain ⟨hx, hy, hcall⟩ := hP.call₂ he
    exact hcall (hpart x hx) (hpart' y hy)

end nodes

variable [Scalar α]

/-! ## Rules -/

/-- Whatever a rule makes of a node. -/
theorem of_rewrites (hQ : IsLocal Q Q) (hP : IsLocal P Q) {e r : Expr α} (h : Rewrites e r)
    (he : P e) : P r := by
  cases h with
  | left a b => exact hP.left he
  | right hop a b => exact hP.right hop he
  | leftOfLeft hop a b c => exact hP.left (hP.left he)
  | rightOfLeft hop hop' a b c => exact hP.right hop' (hP.left he)
  | leftOfRight hop a b c => exact hP.left (hP.right hop he)
  | doubled a b => exact hP.product_iff.mpr ⟨hP.const _, hP.left he⟩
  | merged k l h =>
    obtain ⟨-, ha⟩ := hP.product_iff.mp he
    rcases h with rfl | rfl
    · exact hP.product_iff.mpr ⟨hP.const _, (hP.product_iff.mp ha).2⟩
    · exact hP.product_iff.mpr ⟨hP.const _, (hP.product_iff.mp ha).1⟩
  | merged' k l h =>
    obtain ⟨ha, -⟩ := hP.product_iff.mp he
    rcases h with rfl | rfl
    · exact hP.product_iff.mpr ⟨hP.const _, (hP.product_iff.mp ha).2⟩
    · exact hP.product_iff.mpr ⟨hP.const _, (hP.product_iff.mp ha).1⟩
  | powerOverBase a n c =>
    obtain ⟨ha, hn⟩ := hP.power.mp (hP.left he)
    exact hP.power.mpr ⟨ha, hQ.difference_iff.mpr ⟨hn, hQ.const _⟩⟩
  | baseBelowPower a b n c =>
    obtain ⟨hpow, hc⟩ := hP.quotient_iff.mp he
    obtain ⟨ha, hb⟩ := hP.quotient_iff.mp hpow
    have hn : Q (.sum n (nat 1)) := hQ.sum_iff.mpr ⟨(hP.power.mp hb).2, hQ.const _⟩
    exact hP.quotient_iff.mpr ⟨ha, hP.power.mpr ⟨hc, hn⟩⟩
  | baseBelowBase a b c =>
    obtain ⟨hab, hc⟩ := hP.quotient_iff.mp he
    exact hP.quotient_iff.mpr ⟨hP.left hab, hP.power.mpr ⟨hc, hQ.const _⟩⟩
  | powerOfPower a n m =>
    obtain ⟨hpow, hm⟩ := hP.power.mp he
    obtain ⟨ha, hn⟩ := hP.power.mp hpow
    exact hP.power.mpr ⟨ha, hQ.product_iff.mpr ⟨hn, hm⟩⟩
  | _ =>
    -- A constant, or operands of the node joined by operators other than a power.
    simp_all only [hP.const, hP.sum_iff, hP.difference_iff, hP.product_iff, hP.quotient_iff,
      hP.neg, and_self, and_true, true_and]

/-! ## Common factors -/

theorem of_mem_insert {base : Expr α} {exponent : α} {factors : List (Factor α)}
    (hbase : P base) (hfactors : ∀ factor ∈ factors, P factor.base) :
    ∀ factor ∈ Factor.insert base exponent factors, P factor.base := by
  induction factors with
  | nil => exact List.forall_mem_singleton.mpr hbase
  | cons factor rest ih =>
    obtain ⟨hfactor, hrest⟩ := List.forall_mem_cons.mp hfactors
    unfold Factor.insert
    split
    · exact List.forall_mem_cons.mpr ⟨hfactor, hrest⟩
    · exact List.forall_mem_cons.mpr ⟨hfactor, ih hrest⟩

theorem of_mem_appendFactors (hP : IsLocal P Q) {exponent : α} {factors : List (Factor α)}
    {e : Expr α} (he : P e) (hfactors : ∀ factor ∈ factors, P factor.base) :
    ∀ factor ∈ e.appendFactors exponent factors, P factor.base := by
  fun_induction appendFactors exponent factors e with
  | case1 exponent factors a b iha ihb =>
    obtain ⟨ha, hb⟩ := hP.product_iff.mp he
    exact ihb hb (iha ha hfactors)
  | case2 exponent factors a ih =>
    exact ih (hP.neg.mp he) (of_mem_insert (hP.const _) hfactors)
  | case3 exponent factors a k hk ih => exact ih (hP.power.mp he).1 hfactors
  | case4 exponent factors a k hk => exact of_mem_insert he hfactors
  | case5 exponent factors e _ _ _ => exact of_mem_insert he hfactors

theorem of_mem_chain (hP : IsLocal P Q) {e : Expr α} (he : P e) :
    ∀ factor ∈ e.chain, P factor.base :=
  hP.of_mem_appendFactors he (List.forall_mem_nil _)

theorem of_toExpr (hQ : IsLocal Q Q) (hP : IsLocal P Q) {factor : Factor α} (h : P factor.base) :
    P factor.toExpr := by
  unfold Factor.toExpr
  split
  · exact h
  · exact hP.power.mpr ⟨h, hQ.const _⟩

theorem of_mem_sharedCoefficient (hP : IsLocal P Q) {a b : Expr α} :
    ∀ factor ∈ sharedCoefficient a b, P factor.base := by
  intro factor hmem
  obtain ⟨k, -, -, rfl⟩ := eq_of_mem_sharedCoefficient hmem
  exact hP.const k

theorem of_mem_sharedFactor {a : Expr α} {factor : Factor α} (h : P factor.base) :
    ∀ shared ∈ sharedFactor a factor, P shared.base := by
  intro shared hmem
  obtain ⟨-, -, rfl⟩ := eq_of_mem_sharedFactor hmem
  exact h

theorem of_productOf? (hQ : IsLocal Q Q) (hP : IsLocal P Q) {factors : List (Factor α)} {e : Expr α}
    (hfactors : ∀ factor ∈ factors, P factor.base) (h : productOf? factors = some e) : P e :=
  productOf?_induction (fun ha hb => hP.product_iff.mpr ⟨ha, hb⟩)
    (fun factor hmem => of_toExpr hQ hP (hfactors factor hmem)) h

theorem of_sharedFactors? (hQ : IsLocal Q Q) (hP : IsLocal P Q) {a b e : Expr α} (hb : P b)
    (h : sharedFactors? a b = some e) : P e := by
  refine of_productOf? hQ hP (fun factor hmem => ?_) h
  rcases List.mem_append.mp hmem with hmem | hmem
  · exact hP.of_mem_sharedCoefficient factor hmem
  · obtain ⟨base, hbase, hmem⟩ := List.mem_flatMap.mp hmem
    exact of_mem_sharedFactor (hP.of_mem_chain hb base hbase) factor hmem

theorem of_sharedByChains? (hQ : IsLocal Q Q) (hP : IsLocal P Q) {a b e : Expr α} (ha : P a)
    (hb : P b) (h : sharedByChains? a b = some e) : P e := by
  rcases sharedByChains?_cases h with h | h
  · exact of_sharedFactors? hQ hP hb h
  · exact of_sharedFactors? hQ hP ha h

/-- The common factor of two expressions. -/
theorem of_commonFactor? (hQ : IsLocal Q Q) (hP : IsLocal P Q) {a b g : Expr α} (ha : P a)
    (hb : P b) (h : commonFactor? a b = some g) : P g := by
  replace h := foundFactor_of_commonFactor? h
  induction h with
  | leftZero => exact hb
  | rightZero => exact ha
  | same => exact ha
  | numbers => exact hP.const _
  | chains h => exact of_sharedByChains? hQ hP ha hb h
  | bases _ ih => exact ih (hP.power.mp ha).1 (hP.power.mp hb).1
  | leftBase _ ih => exact ih (hP.power.mp ha).1 hb
  | rightBase _ ih => exact ih (hP.power.mp hb).1 ha
  | leftTerms hterms _ _ ihl ihr =>
    obtain ⟨hl, hr⟩ := hP.terms ha hterms
    exact ihr (ihl hl hb) hr
  | rightTerms hterms _ _ ihl ihr =>
    obtain ⟨hl, hr⟩ := hP.terms hb hterms
    exact ihr (ihl hl ha) hr

/-! ## Quotients -/

theorem of_lowerPower? (hQ : IsLocal Q Q) (hP : IsLocal P Q) {inner r : Expr α} {k n : α}
    (hinner : P inner) (h : lowerPower? inner k n = some r) : P r := by
  obtain ⟨-, ⟨-, rfl⟩ | ⟨-, rfl⟩ | ⟨-, rfl⟩⟩ := lowerPower?_cases h
  · exact hP.const _
  · exact hinner
  · exact hP.power.mpr ⟨hinner, hQ.const _⟩

theorem of_divideByPower? (hQ : IsLocal Q Q) (hP : IsLocal P Q) {base e r : Expr α} {n : α}
    (he : P e) (h : divideByPower? base e n = some r) : P r := by
  replace h := powerQuotient_of_divideByPower? h
  induction h with
  | rest => exact he
  | self => exact hP.const _
  | product _ _ _ iha ihb =>
    obtain ⟨ha, hb⟩ := hP.product_iff.mp he
    exact hP.product_iff.mpr ⟨iha ha, ihb hb⟩
  | sum _ _ _ iha ihb =>
    obtain ⟨ha, hb⟩ := hP.sum_iff.mp he
    exact hP.sum_iff.mpr ⟨iha ha, ihb hb⟩
  | difference _ _ _ iha ihb =>
    obtain ⟨ha, hb⟩ := hP.difference_iff.mp he
    exact hP.difference_iff.mpr ⟨iha ha, ihb hb⟩
  | quotient _ _ iha =>
    obtain ⟨ha, hb⟩ := hP.quotient_iff.mp he
    exact hP.quotient_iff.mpr ⟨iha ha, hb⟩
  | lowered _ _ _ hq => exact of_lowerPower? hQ hP (hP.power.mp he).1 hq
  | power _ _ _ _ _ ih =>
    obtain ⟨ha, hk⟩ := hP.power.mp he
    exact hP.power.mpr ⟨ih ha, hk⟩
  | neg _ _ ih => exact hP.neg.mpr (ih (hP.neg.mp he))

theorem of_divideByConstant? (hP : IsLocal P Q) {e r : Expr α} {k : α} (he : P e)
    (h : divideByConstant? k e = some r) : P r := by
  replace h := constantQuotient_of_divideByConstant? h
  induction h with
  | one => exact he
  | const => exact hP.const _
  | left _ iha =>
    obtain ⟨ha, hb⟩ := hP.product_iff.mp he
    exact hP.product_iff.mpr ⟨iha ha, hb⟩
  | right _ ihb =>
    obtain ⟨ha, hb⟩ := hP.product_iff.mp he
    exact hP.product_iff.mpr ⟨ha, ihb hb⟩
  | sum _ _ iha ihb =>
    obtain ⟨ha, hb⟩ := hP.sum_iff.mp he
    exact hP.sum_iff.mpr ⟨iha ha, ihb hb⟩
  | difference _ _ iha ihb =>
    obtain ⟨ha, hb⟩ := hP.difference_iff.mp he
    exact hP.difference_iff.mpr ⟨iha ha, ihb hb⟩
  | quotient _ iha =>
    obtain ⟨ha, hb⟩ := hP.quotient_iff.mp he
    exact hP.quotient_iff.mpr ⟨iha ha, hb⟩
  | sign => exact hP.neg.mp he
  | neg _ ih => exact hP.neg.mpr (ih (hP.neg.mp he))

theorem of_divideByFactor? (hQ : IsLocal Q Q) (hP : IsLocal P Q) {e r : Expr α}
    {factor : Factor α} (he : P e) (h : divideByFactor? e factor = some r) : P r := by
  unfold divideByFactor? at h
  split at h
  · exact of_divideByConstant? hP he h
  · exact of_divideByPower? hQ hP he h

theorem of_foldlM_divideByFactor? (hQ : IsLocal Q Q) (hP : IsLocal P Q)
    {factors : List (Factor α)} {e r : Expr α} (he : P e)
    (h : factors.foldlM divideByFactor? e = some r) : P r := by
  induction factors generalizing e with
  | nil =>
    obtain rfl := Option.some.inj h
    exact he
  | cons factor rest ih =>
    rw [List.foldlM_cons] at h
    obtain ⟨e', he', h⟩ := Option.bind_eq_some_iff.mp h
    exact ih (of_divideByFactor? hQ hP he he') h

/-- An expression divided by whatever divides it. -/
theorem of_divideOut? (hQ : IsLocal Q Q) (hP : IsLocal P Q) {e divisor r : Expr α} (he : P e)
    (h : divideOut? e divisor = some r) : P r :=
  of_foldlM_divideByFactor? hQ hP he h

/-! ## Passes -/

theorem of_extract? (hQ : IsLocal Q Q) (hP : IsLocal P Q) {op : Operator} {a b g a' b' : Expr α}
    (ha : P a) (hb : P b) (h : extract? op a b = some (g, a', b')) : P g ∧ P a' ∧ P b' := by
  obtain ⟨hg, ha', hb'⟩ := divideOut?_of_extract? h
  exact ⟨of_commonFactor? hQ hP ha hb hg, of_divideOut? hQ hP ha ha', of_divideOut? hQ hP hb hb'⟩

/-- An expression with a common factor pulled out. -/
theorem of_factored (hQ : IsLocal Q Q) (hP : IsLocal P Q) {e : Expr α} (he : P e) :
    P e.factored.expr := by
  rcases factored_cases e with heq | ⟨op, a, b, g, a', b', rfl, -, hop, h, heq⟩
  · rw [heq]
    exact he
  · rw [heq]
    obtain ⟨ha, hb⟩ := (hP.binary hop).mp he
    obtain ⟨hg, ha', hb'⟩ := of_extract? hQ hP ha hb h
    dsimp only
    split
    · exact hP.quotient_iff.mpr ⟨ha', hb'⟩
    · exact hP.product_iff.mpr ⟨(hP.binary hop).mpr ⟨ha', hb'⟩, hg⟩

/-- The levels below a node keep `P` and `Q` alike, since a part of it is held to one of them. -/
theorem isPassInvariant (hQ : IsLocal Q Q) :
    IsPassInvariant fun e r => ∀ {P : Expr α → Prop}, IsLocal P Q → P e → P r.expr where
  unchanged _ _ _ he := he
  rule h _ hP he := of_rewrites hQ hP (rewrites_of_replacement? h) he
  parts hpart _ _ hP he := hP.of_reviseParts (fun x => hpart x hP) (fun x => hpart x hQ) he
  factored _ _ hP he := of_factored hQ hP he
  trans hr hs _ _ hP he := hs hP (hr hP he)

/-- A pass over so many levels. -/
theorem of_refine (hQ : IsLocal Q Q) (hP : IsLocal P Q) (levels : Nat) {e : Expr α} (he : P e) :
    P (e.refine levels).expr :=
  hQ.isPassInvariant.refine levels e hP he

theorem of_reduceFrom (hQ : IsLocal Q Q) (hP : IsLocal P Q) {limits : Limits} {pass : Nat}
    {changed : Bool} {passes : Nat} {e : Expr α} (he : P e) :
    P (e.reduceFrom limits pass changed passes).expr := by
  induction passes generalizing pass changed e with
  | zero => exact he
  | succ passes ih =>
    rw [reduceFrom]
    dsimp only
    split
    · exact he
    · exact ih (of_refine hQ hP _ he)

/-- **What a reduction keeps.** A property of nodes that their parts decide holds of whatever an
expression that has it is reduced to. -/
theorem of_reduce (hQ : IsLocal Q Q) (hP : IsLocal P Q) (limits : Limits) {e : Expr α} (he : P e) :
    P (e.reduce limits).expr :=
  of_reduceFrom hQ hP he

/-! ## Expansions -/

/-- A product that is multiplied out. -/
theorem of_distribute? (hQ : IsLocal Q Q) (hP : IsLocal P Q) {a b r : Expr α}
    (h : distribute? a b = some r) (hab : P (.product a b)) : P r := by
  obtain ⟨ha, hb⟩ := hP.product_iff.mp hab
  unfold distribute? at h
  split at h
  · obtain rfl := Option.some.inj h
    obtain ⟨hx, hy⟩ := hP.sum_iff.mp ha
    exact hP.sum_iff.mpr ⟨hP.product_iff.mpr ⟨hx, hb⟩, hP.product_iff.mpr ⟨hy, hb⟩⟩
  · obtain rfl := Option.some.inj h
    obtain ⟨hx, hy⟩ := hP.difference_iff.mp ha
    exact hP.difference_iff.mpr ⟨hP.product_iff.mpr ⟨hx, hb⟩, hP.product_iff.mpr ⟨hy, hb⟩⟩
  · obtain rfl := Option.some.inj h
    obtain ⟨hx, hy⟩ := hP.sum_iff.mp hb
    exact hP.sum_iff.mpr ⟨hP.product_iff.mpr ⟨ha, hx⟩, hP.product_iff.mpr ⟨ha, hy⟩⟩
  · obtain rfl := Option.some.inj h
    obtain ⟨hx, hy⟩ := hP.difference_iff.mp hb
    exact hP.difference_iff.mpr ⟨hP.product_iff.mpr ⟨ha, hx⟩, hP.product_iff.mpr ⟨ha, hy⟩⟩
  · obtain rfl := Option.some.inj h
    obtain ⟨hx, hy⟩ := hP.quotient_iff.mp hb
    exact hP.quotient_iff.mpr ⟨hP.product_iff.mpr ⟨ha, hx⟩, hy⟩
  · obtain rfl := Option.some.inj h
    obtain ⟨hx, hy⟩ := hP.quotient_iff.mp ha
    exact hP.quotient_iff.mpr ⟨hP.product_iff.mpr ⟨hb, hx⟩, hy⟩
  · exact of_rewrites hQ hP (rewrites_of_mergeCoefficients? h) hab

theorem of_expandOnce (hQ : IsLocal Q Q) (hP : IsLocal P Q) {e : Expr α} (he : P e) :
    P e.expandOnce.expr := by
  induction e generalizing P with
  | param p => exact he
  | const k => exact he
  | call₀ f => exact he
  | binary op a b iha ihb =>
    rw [expandOnce]
    split
    · next r hr =>
      split at hr
      · next hop =>
        subst hop
        exact of_distribute? hQ hP hr he
      · contradiction
    · by_cases hop : op = .power
      · subst hop
        obtain ⟨ha, hb⟩ := hP.power.mp he
        exact hP.power.mpr ⟨iha hP ha, ihb hQ hb⟩
      · obtain ⟨ha, hb⟩ := (hP.binary hop).mp he
        exact (hP.binary hop).mpr ⟨iha hP ha, ihb hP hb⟩
  | neg a ih => exact hP.neg.mpr (ih hP (hP.neg.mp he))
  | call₁ f x ih =>
    obtain ⟨hx, hcall⟩ := hP.call₁ he
    exact hcall (ih hP hx)
  | call₂ f x y ihx ihy =>
    obtain ⟨hx, hy, hcall⟩ := hP.call₂ he
    exact hcall (ihx hP hx) (ihy hQ hy)

theorem of_expandFrom (hQ : IsLocal Q Q) (hP : IsLocal P Q) {limits : Limits} {changed : Bool}
    {passes : Nat} {e : Expr α} (he : P e) : P (expandFrom limits changed passes e).expr := by
  induction passes generalizing changed e with
  | zero => exact he
  | succ passes ih =>
    rw [expandFrom]
    dsimp only
    split
    · exact ih (of_expandOnce hQ hP he)
    · exact he

/-- **What an expansion keeps.** -/
theorem of_expand (hQ : IsLocal Q Q) (hP : IsLocal P Q) (limits : Limits) {e : Expr α} (he : P e) :
    P (e.expand limits).expr :=
  of_expandFrom hQ hP he

end IsLocal

end SymbolicCalculus.Expr
