import SymbolicCalculus.Binary64.Basic
import SymbolicCalculus.Expansion
import SymbolicCalculus.Proofs.Lowering

/-!
# Expansion ends, and leaves nothing to multiply out

A product that is distributed over a sum becomes two products with one operand in both, so an
expansion makes trees larger. It ends all the same: in the weight `Expr.spread` products multiply,
and each pass that changes a tree lowers it (`lowers_expandOnce`). A pass changes nothing exactly
when each product in the tree is multiplied out (`changed_expandOnce_eq_false_iff`), so whatever an
expansion ends with is (`expand_ends`).
-/

namespace SymbolicCalculus

/-- Does the event say that an expansion was stopped by the limit on passes? -/
def Event.isExpansionStop {α : Type} : Event α → Bool
  | expansionStopped _ _ => true
  | _ => false

/-- Was an expansion stopped by the limit on passes? -/
def Revision.isStopped {α : Type} (r : Revision α) : Bool :=
  r.events.any Event.isExpansionStop

namespace Expr

variable {α : Type}

/-! ## Multiplied out -/

/-- The expression and all that it is made of, arguments and exponents included. -/
def subexpressions (e : Expr α) : List (Expr α) :=
  e :: match e with
    | param _ | const _ | call₀ _ => []
    | binary _ a b => a.subexpressions ++ b.subexpressions
    | neg a => a.subexpressions
    | call₁ _ x => x.subexpressions
    | call₂ _ x y => x.subexpressions ++ y.subexpressions

/-- Is it a sum, a difference or a quotient? -/
def isSumOrQuotient : Expr α → Bool
  | sum _ _ | difference _ _ | quotient _ _ => true
  | _ => false

/-- Is it a product with a constant operand? -/
def isScaled : Expr α → Bool
  | product (const _) _ | product _ (const _) => true
  | _ => false

/-- The product of two operands is multiplied out: neither is a sum, a difference or a quotient, and
they are not a constant and a product with a constant operand. -/
structure IsMultipliedOut (a b : Expr α) : Prop where
  left : a.isSumOrQuotient = false
  right : b.isSumOrQuotient = false
  right_of_constant : a.constant?.isSome = true → b.isScaled = false
  left_of_constant : b.constant?.isSome = true → a.isScaled = false

/-- Every product within the expression is multiplied out. -/
def IsExpanded (e : Expr α) : Prop :=
  ∀ a b, product a b ∈ e.subexpressions → IsMultipliedOut a b

section parts

variable {a b : Expr α}

theorem mem_subexpressions_binary {op : Operator} {e : Expr α} :
    e ∈ (binary op a b).subexpressions ↔
      e = binary op a b ∨ e ∈ a.subexpressions ∨ e ∈ b.subexpressions :=
  List.mem_cons.trans (or_congr_right List.mem_append)

theorem mem_subexpressions_neg {e : Expr α} :
    e ∈ (neg a).subexpressions ↔ e = neg a ∨ e ∈ a.subexpressions :=
  List.mem_cons

theorem mem_subexpressions_call₁ {f : Builtin} {e : Expr α} :
    e ∈ (call₁ f a).subexpressions ↔ e = call₁ f a ∨ e ∈ a.subexpressions :=
  List.mem_cons

theorem mem_subexpressions_call₂ {f : Builtin} {e : Expr α} :
    e ∈ (call₂ f a b).subexpressions ↔
      e = call₂ f a b ∨ e ∈ a.subexpressions ∨ e ∈ b.subexpressions :=
  List.mem_cons.trans (or_congr_right List.mem_append)

theorem mem_subexpressions_call₀ {f : Builtin} {e : Expr α} :
    e ∈ (call₀ f : Expr α).subexpressions ↔ e = call₀ f :=
  List.mem_singleton

theorem mem_subexpressions_of_isLeaf {e leaf : Expr α} (h : leaf.isLeaf = true) :
    e ∈ leaf.subexpressions ↔ e = leaf := by
  cases leaf with
  | param _ | const _ => exact List.mem_singleton
  | _ => contradiction

theorem isExpanded_of_isLeaf {e : Expr α} (h : e.isLeaf = true) : e.IsExpanded := by
  intro a b hmem
  obtain rfl := (mem_subexpressions_of_isLeaf h).mp hmem
  contradiction

theorem isExpanded_binary {op : Operator} :
    (binary op a b).IsExpanded ↔
      (op = .times → IsMultipliedOut a b) ∧ a.IsExpanded ∧ b.IsExpanded := by
  simp only [IsExpanded, mem_subexpressions_binary, binary.injEq]
  grind

theorem isExpanded_neg : (neg a).IsExpanded ↔ a.IsExpanded := by
  simp [IsExpanded, mem_subexpressions_neg]

theorem isExpanded_call₀ (f : Builtin) : (call₀ f : Expr α).IsExpanded := by
  simp [IsExpanded, mem_subexpressions_call₀]

theorem isExpanded_call₁ {f : Builtin} : (call₁ f a).IsExpanded ↔ a.IsExpanded := by
  simp [IsExpanded, mem_subexpressions_call₁]

theorem isExpanded_call₂ {f : Builtin} :
    (call₂ f a b).IsExpanded ↔ a.IsExpanded ∧ b.IsExpanded := by
  simp only [IsExpanded, mem_subexpressions_call₂]
  grind

theorem isSumOrQuotient_eq_false {e : Expr α} (hsum : ∀ a b, e = sum a b → False)
    (hdifference : ∀ a b, e = difference a b → False)
    (hquotient : ∀ a b, e = quotient a b → False) : e.isSumOrQuotient = false := by
  unfold isSumOrQuotient
  split
  · next a b => exact (hsum a b rfl).elim
  · next a b => exact (hdifference a b rfl).elim
  · next a b => exact (hquotient a b rfl).elim
  · rfl

end parts

/-! ## What is not distributed -/

section distribution

variable [Mul α] {a b : Expr α}

theorem scaleProduct?_eq_none_iff {k : α} {e : Expr α} :
    scaleProduct? k e = none ↔ e.isScaled = false := by
  unfold scaleProduct? isScaled
  split <;> simp_all

theorem mergeCoefficients?_eq_none_iff :
    mergeCoefficients? a b = none ↔
      (a.constant?.isSome = true → b.isScaled = false) ∧
        (b.constant?.isSome = true → a.isScaled = false) := by
  unfold mergeCoefficients?
  split
  · simp [constant?, isScaled]
  · simp [scaleProduct?_eq_none_iff, constant?]
  · simp [scaleProduct?_eq_none_iff, constant?]
  · simp [constant?]

/-- A product is left as it is exactly if it is multiplied out. -/
theorem distribute?_eq_none_iff : distribute? a b = none ↔ IsMultipliedOut a b := by
  unfold distribute?
  split
  case h_7 ha ha' ha'' hb hb' hb'' =>
    rw [mergeCoefficients?_eq_none_iff]
    constructor
    · rintro ⟨hright, hleft⟩
      exact ⟨isSumOrQuotient_eq_false ha ha' ha'', isSumOrQuotient_eq_false hb hb' hb'', hright,
        hleft⟩
    · rintro ⟨-, -, hright, hleft⟩
      exact ⟨hright, hleft⟩
  all_goals
    constructor
    · intro h
      contradiction
    · rintro ⟨hleft, hright, -, -⟩
      simp [isSumOrQuotient] at hleft hright

end distribution

/-! ## The weight of an expansion -/

/-- A weight in which products multiply, so that distributing one lowers it. -/
def spread : Expr α → Nat
  | param _ | const _ | call₀ _ => 2
  | product a b => a.spread * b.spread
  | binary _ a b => a.spread + b.spread + 1
  | neg a => a.spread + 1
  | call₁ _ x => x.spread + 1
  | call₂ _ x y => x.spread + y.spread + 1

theorem spread_const (k : α) : (const k).spread = 2 := rfl

theorem spread_product (a b : Expr α) : (product a b).spread = a.spread * b.spread := rfl

theorem spread_sum (a b : Expr α) : (sum a b).spread = a.spread + b.spread + 1 := rfl

theorem spread_difference (a b : Expr α) : (difference a b).spread = a.spread + b.spread + 1 := rfl

theorem spread_binary {op : Operator} (hop : op ≠ .times) (a b : Expr α) :
    (binary op a b).spread = a.spread + b.spread + 1 := by
  cases op with
  | times => contradiction
  | _ => rfl

theorem spread_call₂ (f : Builtin) (a b : Expr α) :
    (call₂ f a b).spread = a.spread + b.spread + 1 := rfl

theorem two_le_spread (e : Expr α) : 2 ≤ e.spread := by
  induction e with
  | param _ | const _ | call₀ _ => exact Nat.le_refl 2
  | binary op a b iha ihb =>
    by_cases hop : op = .times
    · subst hop
      exact Nat.le_trans (by omega) (Nat.mul_le_mul iha ihb)
    · rw [spread_binary hop]
      omega
  | neg a ih => exact Nat.le_succ_of_le ih
  | call₁ f a ih => exact Nat.le_succ_of_le ih
  | call₂ f a b iha ihb =>
    rw [spread_call₂]
    omega

/-- A node weighs less if one of its operands does and the other no more. -/
theorem spread_binary_lt (op : Operator) {a a' b b' : Expr α} (ha : a'.spread ≤ a.spread)
    (hb : b'.spread ≤ b.spread) (h : a'.spread < a.spread ∨ b'.spread < b.spread) :
    (binary op a' b').spread < (binary op a b).spread := by
  by_cases hop : op = .times
  · subst hop
    have ha' := two_le_spread a'
    have hb' := two_le_spread b'
    rw [spread_product, spread_product]
    rcases h with h | h
    · exact Nat.mul_lt_mul_of_lt_of_le h hb (by omega)
    · exact Nat.mul_lt_mul_of_le_of_lt ha h (by omega)
  · rw [spread_binary hop, spread_binary hop]
    omega

section passes

variable [Mul α] {a b r : Expr α}

theorem spread_scaleProduct?_lt {k : α} {e : Expr α} (h : scaleProduct? k e = some r) :
    r.spread < 2 * e.spread := by
  unfold scaleProduct? at h
  split at h
  · next k' u =>
    obtain rfl := Option.some.inj h
    have hu := two_le_spread u
    simp only [spread_product, spread_const]
    omega
  · next u k' _ =>
    obtain rfl := Option.some.inj h
    have hu := two_le_spread u
    simp only [spread_product, spread_const]
    omega
  · contradiction

theorem spread_mergeCoefficients?_lt (h : mergeCoefficients? a b = some r) :
    r.spread < (product a b).spread := by
  unfold mergeCoefficients? at h
  split at h
  · contradiction
  · exact spread_scaleProduct?_lt h
  · have hr := spread_scaleProduct?_lt h
    rw [spread_product, spread_const]
    omega
  · contradiction

/-- A factor weighs less in a numerator than in front of the quotient. -/
theorem mul_add_lt_mul_add {x : Nat} (hx : 2 ≤ x) (y z : Nat) :
    x * y + z + 1 < x * (y + z + 1) := by
  have hz : 2 * z ≤ x * z := Nat.mul_le_mul_right z hx
  rw [Nat.mul_add, Nat.mul_add]
  omega

/-- Distributing a product over two terms writes its other operand twice, which costs less than the
weight that the sum had as an operand. -/
theorem spread_distribute?_lt (h : distribute? a b = some r) :
    r.spread < (product a b).spread := by
  have ha := two_le_spread a
  have hb := two_le_spread b
  unfold distribute? at h
  split at h
  case h_5 c d _ _ =>
    obtain rfl := Option.some.inj h
    exact mul_add_lt_mul_add ha c.spread d.spread
  case h_6 c d _ _ _ =>
    obtain rfl := Option.some.inj h
    have hlt := mul_add_lt_mul_add hb c.spread d.spread
    rwa [Nat.mul_comm b.spread (_ + _ + 1)] at hlt
  case h_7 => exact spread_mergeCoefficients?_lt h
  all_goals
    obtain rfl := Option.some.inj h
    simp only [spread_product, spread_sum, spread_difference, Nat.add_mul, Nat.mul_add]
    omega

/-! ## A pass -/

/-- A pass leaves a tree as it is and says so, or lowers its weight. -/
theorem lowers_expandOnce (e : Expr α) : Revision.Lowers spread e e.expandOnce := by
  induction e with
  | param p => exact .unchanged rfl rfl
  | const k => exact .unchanged rfl rfl
  | binary op a b iha ihb =>
    rw [expandOnce]
    split
    · next r hr =>
      split at hr
      · next hop =>
        subst hop
        exact .lowered rfl (spread_distribute?_lt hr)
      · contradiction
    · exact iha.join ihb (spread_binary_lt op)
  | neg a ih => exact ih.wrap (Nat.add_lt_add_right · 1)
  | call₀ f => exact .unchanged rfl rfl
  | call₁ f x ih => exact ih.wrap (Nat.add_lt_add_right · 1)
  | call₂ f x y ihx ihy =>
    refine ihx.join ihy fun hx hy h => ?_
    rw [spread_call₂, spread_call₂]
    omega

/-- A pass leaves a tree as it is exactly if each product in it is multiplied out. -/
theorem changed_expandOnce_eq_false_iff {e : Expr α} :
    e.expandOnce.changed = false ↔ e.IsExpanded := by
  induction e with
  | param p => exact ⟨fun _ => isExpanded_of_isLeaf rfl, fun _ => rfl⟩
  | const k => exact ⟨fun _ => isExpanded_of_isLeaf rfl, fun _ => rfl⟩
  | binary op a b iha ihb =>
    rw [isExpanded_binary, ← iha, ← ihb, ← distribute?_eq_none_iff, expandOnce]
    by_cases hop : op = .times
    · rw [if_pos hop]
      cases distribute? a b with
      | none => simp [Revision.join]
      | some r => simp [hop]
    · rw [if_neg hop]
      simp [Revision.join, hop]
  | neg a ih => rw [isExpanded_neg, ← ih]; rfl
  | call₀ f => exact ⟨fun _ => isExpanded_call₀ f, fun _ => rfl⟩
  | call₁ f x ih => rw [isExpanded_call₁, ← ih]; rfl
  | call₂ f x y ihx ihy =>
    rw [isExpanded_call₂, ← ihx, ← ihy]
    simp [expandOnce, Revision.join]

/-! ## Passes to a fixed point -/

/-- A pass reports only what it distributes. -/
theorem isStopped_expandOnce (e : Expr α) : e.expandOnce.isStopped = false := by
  induction e with
  | binary op a b iha ihb =>
    rw [expandOnce]
    split
    · rfl
    · simp_all [Revision.isStopped, Revision.join]
  | call₂ f x y ihx ihy => simp_all [expandOnce, Revision.isStopped, Revision.join]
  | neg a ih => exact ih
  | call₁ f x ih => exact ih
  | _ => rfl

variable {limits : Limits} {changed : Bool} {passes : Nat} {e : Expr α}

/-- As many passes as the tree weighs are enough. -/
theorem isStopped_expandFrom (h : e.spread < passes) :
    (e.expandFrom limits changed passes).isStopped = false := by
  induction passes generalizing changed e with
  | zero => contradiction
  | succ passes ih =>
    rw [expandFrom]
    cases lowers_expandOnce e with
    | unchanged hchanged _ => simp [hchanged, Revision.isStopped]
    | lowered hchanged hlt =>
      have hstop := isStopped_expandOnce e
      have hrest : (e.expandOnce.expr.expandFrom limits true passes).isStopped = false :=
        ih (by omega)
      simp_all [Revision.isStopped]

/-- If the passes were not stopped, the last one changed nothing. -/
theorem isExpanded_expandFrom (h : (e.expandFrom limits changed passes).isStopped = false) :
    (e.expandFrom limits changed passes).expr.IsExpanded := by
  induction passes generalizing changed e with
  | zero => contradiction
  | succ passes ih =>
    rw [expandFrom] at h ⊢
    dsimp only at h ⊢
    split
    · next hchanged =>
      rw [if_pos hchanged] at h
      exact ih (by simp_all [Revision.isStopped])
    · next hchanged =>
      exact changed_expandOnce_eq_false_iff.mp (by simpa using hchanged)

/-- **Expansion ends in a multiplied-out form.** For every expression there is a number of passes
such that with a higher limit the expansion is not stopped by it. Whenever an expansion is not
stopped by the limit, no product within its result, arguments and exponents included, has a sum, a
difference or a quotient as an operand, or consists of a constant and of a product with a constant
operand. -/
theorem expand_ends (e : Expr α) :
    (∃ n, ∀ limits : Limits, n < limits.maxPasses → (e.expand limits).isStopped = false) ∧
      ∀ limits : Limits, (e.expand limits).isStopped = false →
        ∀ a b, product a b ∈ (e.expand limits).expr.subexpressions → IsMultipliedOut a b :=
  ⟨⟨e.spread, fun _ h => isStopped_expandFrom h⟩, fun _ h => isExpanded_expandFrom h⟩

end passes

/-- `sin (2*(x + 1))*(y/(3*(2*x)) - 5)`, over doubles and with the limits as they are by default. -/
theorem expand_ends_of_sine :
    let e : Expr Binary64 := product (call₁ .sine (product (nat 2) (sum (param "x") (nat 1))))
      (difference (quotient (param "y") (product (nat 3) (product (nat 2) (param "x")))) (nat 5))
    (e.expand {}).isStopped = false ∧
      ∀ a b, product a b ∈ (e.expand {}).expr.subexpressions → IsMultipliedOut a b :=
  ⟨by decide, (expand_ends _).2 {} (by decide)⟩

end Expr

end SymbolicCalculus
