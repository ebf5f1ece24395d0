import SymbolicCalculus.Proofs.CanonicalText
import SymbolicCalculus.Proofs.DerivativeValue
import SymbolicCalculus.Proofs.LocalProperty

/-!
# What can be differentiated

An expression has a derivative exactly if no exponent and no base of a logarithm in it mentions the
parameter (`IsDifferentiable`, given that its calls have the right number of arguments). In its
derivative none does either (`IsDifferentiable.derivative`), and a reduction keeps to that, since it
is decided by the parts of each node (`isLocal_isDifferentiable`).
-/

namespace SymbolicCalculus

namespace Expr

variable {α : Type} {p q : String} {a b e w : Expr α}

/-- The expression does not mention the parameter, and its calls have as many arguments as the
functions take. -/
def IsFixed (p : String) (e : Expr α) : Prop :=
  e.CallsAccepted ∧ e.dependsOn p = false

/-- No exponent and no base of a logarithm mentions the parameter, and the calls have as many
arguments as the functions take. -/
def IsDifferentiable (p : String) : Expr α → Prop
  | param _ | const _ => True
  | power a n => a.IsDifferentiable p ∧ n.IsFixed p
  | binary _ a b => a.IsDifferentiable p ∧ b.IsDifferentiable p
  | neg a => a.IsDifferentiable p
  | call₀ f => f.accepts 0 = true
  | call₁ f x => f.accepts 1 = true ∧ x.IsDifferentiable p
  | call₂ f x base => f.accepts 2 = true ∧ x.IsDifferentiable p ∧ base.IsFixed p

/-! ## Properties of the parts -/

theorem isLocal_callsAccepted : IsLocal (CallsAccepted (α := α)) CallsAccepted where
  const _ := trivial
  binary _ := Iff.rfl
  power := Iff.rfl
  neg := Iff.rfl
  call₁ h := ⟨h.2, fun hx => ⟨h.1, hx⟩⟩
  call₂ h := ⟨h.2.1, h.2.2, fun hx hy => ⟨h.1, hx, hy⟩⟩

theorem isFixed_binary {op : Operator} :
    (binary op a b).IsFixed p ↔ a.IsFixed p ∧ b.IsFixed p :=
  (and_congr_right' Bool.or_eq_false_iff).trans and_and_and_comm

theorem isFixed_call₁ {f : Builtin} {x : Expr α} :
    (call₁ f x).IsFixed p ↔ f.accepts 1 = true ∧ x.IsFixed p :=
  and_assoc

theorem isFixed_call₂ {f : Builtin} {x y : Expr α} :
    (call₂ f x y).IsFixed p ↔ f.accepts 2 = true ∧ x.IsFixed p ∧ y.IsFixed p :=
  and_assoc.trans (and_congr_right'
    ((and_congr_right' Bool.or_eq_false_iff).trans and_and_and_comm))

theorem isLocal_isFixed (p : String) : IsLocal (IsFixed (α := α) p) (IsFixed p) where
  const _ := ⟨trivial, rfl⟩
  binary _ := isFixed_binary
  power := isFixed_binary
  neg := Iff.rfl
  call₁ h := by
    obtain ⟨hf, hx⟩ := isFixed_call₁.mp h
    exact ⟨hx, fun hx' => isFixed_call₁.mpr ⟨hf, hx'⟩⟩
  call₂ h := by
    obtain ⟨hf, hx, hy⟩ := isFixed_call₂.mp h
    exact ⟨hx, hy, fun hx' hy' => isFixed_call₂.mpr ⟨hf, hx', hy'⟩⟩

theorem isLocal_isDifferentiable (p : String) :
    IsLocal (IsDifferentiable (α := α) p) (IsFixed p) where
  const _ := trivial
  binary hop := by
    rename_i op a b
    cases op <;> first | exact Iff.rfl | exact absurd rfl hop
  power := Iff.rfl
  neg := Iff.rfl
  call₁ h := ⟨h.2, fun hx => ⟨h.1, hx⟩⟩
  call₂ h := ⟨h.2.1, h.2.2, fun hx hy => ⟨h.1, hx, hy⟩⟩

theorem IsFixed.isDifferentiable (h : e.IsFixed p) : e.IsDifferentiable p := by
  induction e with
  | param q => trivial
  | const k => trivial
  | binary op a b iha ihb =>
    obtain ⟨ha, hb⟩ := isFixed_binary.mp h
    cases op with
    | power => exact ⟨iha ha, hb⟩
    | _ => exact ⟨iha ha, ihb hb⟩
  | neg a ih => exact ih h
  | call₀ f => exact h.1
  | call₁ f x ih =>
    obtain ⟨hf, hx⟩ := isFixed_call₁.mp h
    exact ⟨hf, ih hx⟩
  | call₂ f x base ih _ =>
    obtain ⟨hf, hx, hbase⟩ := isFixed_call₂.mp h
    exact ⟨hf, ih hx, hbase⟩

/-! ## Substitution -/

/-- What does not mention the parameter puts it nowhere. -/
theorem IsFixed.substitute (he : e.IsFixed p) (hw : w.IsFixed p) (q : String) :
    (e.substitute q w).IsFixed p := by
  induction e with
  | param q' =>
    unfold Expr.substitute
    split
    · exact hw
    · exact he
  | const k => exact he
  | binary op a b iha ihb =>
    obtain ⟨ha, hb⟩ := isFixed_binary.mp he
    exact isFixed_binary.mpr ⟨iha ha, ihb hb⟩
  | neg a ih => exact ih he
  | call₀ f => exact he
  | call₁ f x ih =>
    obtain ⟨hf, hx⟩ := isFixed_call₁.mp he
    exact isFixed_call₁.mpr ⟨hf, ih hx⟩
  | call₂ f x y ihx ihy =>
    obtain ⟨hf, hx, hy⟩ := isFixed_call₂.mp he
    exact isFixed_call₂.mpr ⟨hf, ihx hx, ihy hy⟩

theorem IsDifferentiable.substitute (he : e.IsDifferentiable p) (hw : w.IsFixed p) (q : String) :
    (e.substitute q w).IsDifferentiable p := by
  induction e with
  | param q' =>
    unfold Expr.substitute
    split
    · exact hw.isDifferentiable
    · trivial
  | const k => trivial
  | binary op a b iha ihb =>
    cases op with
    | power => exact ⟨iha he.1, he.2.substitute hw q⟩
    | _ => exact ⟨iha he.1, ihb he.2⟩
  | neg a ih => exact ih he
  | call₀ f => exact he
  | call₁ f x ih => exact ⟨he.1, ih he.2⟩
  | call₂ f x base ih _ => exact ⟨he.1, ih he.2.1, he.2.2.substitute hw q⟩

/-! ## The derivative -/

section derivative

variable [NatCast α] {d x base : Expr α} {f : Builtin}

/-- An expression that has a derivative is one whose exponents and bases do not mention the
parameter. -/
theorem isDifferentiable_of_derivative (hcalls : e.CallsAccepted) (h : e.derivative p = .ok d) :
    e.IsDifferentiable p := by
  induction e generalizing d with
  | param q => trivial
  | const k => trivial
  | binary op a b iha ihb =>
    obtain ⟨hcallsa, hcallsb⟩ := hcalls
    cases op with
    | plus =>
      obtain ⟨a', ha, b', hb, -⟩ := derivative_sum_eq_ok.mp h
      exact ⟨iha hcallsa ha, ihb hcallsb hb⟩
    | minus =>
      obtain ⟨a', ha, b', hb, -⟩ := derivative_difference_eq_ok.mp h
      exact ⟨iha hcallsa ha, ihb hcallsb hb⟩
    | times =>
      obtain ⟨a', ha, b', hb, -⟩ := derivative_product_eq_ok.mp h
      exact ⟨iha hcallsa ha, ihb hcallsb hb⟩
    | divide =>
      obtain ⟨a', ha, b', hb, -⟩ := derivative_quotient_eq_ok.mp h
      exact ⟨iha hcallsa ha, ihb hcallsb hb⟩
    | power =>
      obtain ⟨hfixed, a', ha, -⟩ := derivative_power_eq_ok.mp h
      exact ⟨iha hcallsa ha, hcallsb, hfixed⟩
  | neg a ih =>
    obtain ⟨a', ha, -⟩ := derivative_neg_eq_ok.mp h
    exact ih hcalls ha
  | call₀ f => contradiction
  | call₁ f x ih =>
    obtain ⟨x', hx, -⟩ := derivative_call₁_eq_ok.mp h
    exact ⟨hcalls.1, ih hcalls.2 hx⟩
  | call₂ f x base ih _ =>
    obtain ⟨hfixed, x', hx, -⟩ := derivative_call₂_eq_ok.mp h
    exact ⟨hcalls.1, ih hcalls.2.1 hx, hcalls.2.2, hfixed⟩

/-- The template of a function at its argument. -/
theorem isDifferentiable_outerDerivative (hx : x.IsDifferentiable p) :
    (f.outerDerivative [x]).IsDifferentiable p := by
  cases f with
  | log =>
    rw [Builtin.outerDerivative_log]
    exact ⟨trivial, hx⟩
  | log10 =>
    rw [Builtin.outerDerivative_log10]
    exact ⟨trivial, hx, rfl, trivial⟩
  | sine =>
    rw [Builtin.outerDerivative_sine]
    exact ⟨rfl, hx⟩
  | cosine =>
    rw [Builtin.outerDerivative_cosine]
    exact ⟨rfl, hx⟩
  | tangent =>
    rw [Builtin.outerDerivative_tangent]
    exact ⟨trivial, ⟨rfl, hx⟩, trivial, rfl⟩

theorem isDifferentiable_outerDerivative_base (hf : f.accepts 2 = true)
    (hx : x.IsDifferentiable p) (hbase : base.IsFixed p) :
    (f.outerDerivative [x, base]).IsDifferentiable p := by
  obtain rfl : f = .log := by cases f <;> first | rfl | contradiction
  rw [Builtin.outerDerivative_log_base_eq]
  exact ⟨trivial, hx.substitute hbase _, rfl, hbase.isDifferentiable⟩

/-- **A derivative is differentiable.** -/
theorem IsDifferentiable.derivative (h : e.IsDifferentiable p) :
    ∃ d, e.derivative p = .ok d ∧ d.IsDifferentiable p := by
  induction e with
  | param q =>
    refine ⟨_, rfl, ?_⟩
    split <;> trivial
  | const k => exact ⟨_, rfl, trivial⟩
  | binary op a b iha ihb =>
    cases op with
    | plus =>
      obtain ⟨a', ha', hda⟩ := iha h.1
      obtain ⟨b', hb', hdb⟩ := ihb h.2
      exact ⟨_, derivative_sum_eq_ok.mpr ⟨a', ha', b', hb', rfl⟩, hda, hdb⟩
    | minus =>
      obtain ⟨a', ha', hda⟩ := iha h.1
      obtain ⟨b', hb', hdb⟩ := ihb h.2
      exact ⟨_, derivative_difference_eq_ok.mpr ⟨a', ha', b', hb', rfl⟩, hda, hdb⟩
    | times =>
      obtain ⟨a', ha', hda⟩ := iha h.1
      obtain ⟨b', hb', hdb⟩ := ihb h.2
      exact ⟨_, derivative_product_eq_ok.mpr ⟨a', ha', b', hb', rfl⟩, ⟨hda, h.2⟩, h.1, hdb⟩
    | divide =>
      obtain ⟨a', ha', hda⟩ := iha h.1
      obtain ⟨b', hb', hdb⟩ := ihb h.2
      exact ⟨_, derivative_quotient_eq_ok.mpr ⟨a', ha', b', hb', rfl⟩,
        ⟨⟨hda, h.2⟩, h.1, hdb⟩, h.2, trivial, rfl⟩
    | power =>
      obtain ⟨a', ha', hda⟩ := iha h.1
      -- The exponent less one, like the exponent, does not mention the parameter.
      have hless : (difference b (nat 1)).IsFixed p := isFixed_binary.mpr ⟨h.2, trivial, rfl⟩
      exact ⟨_, derivative_power_eq_ok.mpr ⟨h.2.2, a', ha', rfl⟩,
        ⟨h.2.isDifferentiable, h.1, hless⟩, hda⟩
  | neg a ih =>
    obtain ⟨a', ha', hda⟩ := ih h
    exact ⟨_, derivative_neg_eq_ok.mpr ⟨a', ha', rfl⟩, hda⟩
  | call₀ f => cases f <;> contradiction
  | call₁ f x ih =>
    obtain ⟨x', hx', hdx⟩ := ih h.2
    exact ⟨_, derivative_call₁_eq_ok.mpr ⟨x', hx', rfl⟩, isDifferentiable_outerDerivative h.2, hdx⟩
  | call₂ f x base ih _ =>
    obtain ⟨hf, hx, hbase⟩ := h
    obtain ⟨x', hx', hdx⟩ := ih hx
    exact ⟨_, derivative_call₂_eq_ok.mpr ⟨hbase.2, x', hx', rfl⟩,
      isDifferentiable_outerDerivative_base hf hx hbase, hdx⟩

end derivative

/-- A reduction leaves an expression differentiable. -/
theorem isDifferentiable_reduce [Scalar α] (limits : Limits) (h : e.IsDifferentiable p) :
    (e.reduce limits).expr.IsDifferentiable p :=
  (isLocal_isFixed p).of_reduce (isLocal_isDifferentiable p) limits h

end Expr

end SymbolicCalculus
