import SymbolicCalculus.Expr.Meaning

/-!
# Refinement

`Expr.Refines I e e'`: wherever `e` has a value, `e'` has the same one. An expression may be put in
place of a part that it refines: one congruence lemma for each constructor.
-/

namespace SymbolicCalculus.Expr

variable {α β : Type} {I : Interpretation α β}

/-- Wherever `e` has a value, `e'` has the same value. -/
def Refines (I : Interpretation α β) (e e' : Expr α) : Prop :=
  ∀ v, e.value? I = some v → e'.value? I = some v

/-! ## Values of nodes -/

theorem value?_binary_eq_some {op : Operator} {a b : Expr α} {v : β} :
    (binary op a b).value? I = some v ↔
      ∃ x y, a.value? I = some x ∧ b.value? I = some y ∧ I.operate op x y = some v := by
  show ((a.value? I).bind fun x => (b.value? I).bind (I.operate op x)) = some v ↔ _
  simp [Option.bind_eq_some_iff]

theorem value?_neg_eq_some {a : Expr α} {v : β} :
    (neg a).value? I = some v ↔ ∃ x, a.value? I = some x ∧ I.neg x = v :=
  Option.map_eq_some_iff

theorem value?_call₁_eq_some {f : Builtin} {x : Expr α} {v : β} :
    (call₁ f x).value? I = some v ↔ ∃ y, x.value? I = some y ∧ I.call f [y] = some v :=
  Option.bind_eq_some_iff

theorem value?_call₂_eq_some {f : Builtin} {x y : Expr α} {v : β} :
    (call₂ f x y).value? I = some v ↔
      ∃ x' y', x.value? I = some x' ∧ y.value? I = some y' ∧ I.call f [x', y'] = some v := by
  show ((x.value? I).bind fun x' => (y.value? I).bind fun y' => I.call f [x', y']) = some v ↔ _
  simp [Option.bind_eq_some_iff]

/-! ## Congruence -/

namespace Refines

theorem refl (e : Expr α) : Refines I e e :=
  fun _ h => h

theorem trans {e₁ e₂ e₃ : Expr α} (h₁ : Refines I e₁ e₂) (h₂ : Refines I e₂ e₃) :
    Refines I e₁ e₃ :=
  fun v h => h₂ v (h₁ v h)

theorem binary (op : Operator) {a a' b b' : Expr α} (ha : Refines I a a') (hb : Refines I b b') :
    Refines I (binary op a b) (binary op a' b') := by
  intro v h
  obtain ⟨x, y, hx, hy, hv⟩ := value?_binary_eq_some.mp h
  exact value?_binary_eq_some.mpr ⟨x, y, ha x hx, hb y hy, hv⟩

theorem neg {a a' : Expr α} (ha : Refines I a a') : Refines I (neg a) (neg a') := by
  intro v h
  obtain ⟨x, hx, hv⟩ := value?_neg_eq_some.mp h
  exact value?_neg_eq_some.mpr ⟨x, ha x hx, hv⟩

theorem call₁ (f : Builtin) {x x' : Expr α} (hx : Refines I x x') :
    Refines I (call₁ f x) (call₁ f x') := by
  intro v h
  obtain ⟨y, hy, hv⟩ := value?_call₁_eq_some.mp h
  exact value?_call₁_eq_some.mpr ⟨y, hx y hy, hv⟩

theorem call₂ (f : Builtin) {x x' y y' : Expr α} (hx : Refines I x x') (hy : Refines I y y') :
    Refines I (call₂ f x y) (call₂ f x' y') := by
  intro v h
  obtain ⟨u, w, hu, hw, hv⟩ := value?_call₂_eq_some.mp h
  exact value?_call₂_eq_some.mpr ⟨u, w, hx u hu, hy w hw, hv⟩

end Refines

end SymbolicCalculus.Expr
