/-!
# Runs that succeed

A run made of two steps succeeds if both of them do and fails where one of them does, and a run that
does not succeed fails.
-/

namespace SymbolicCalculus

theorem bind_eq_ok {ε β γ : Type} {x : Except ε β} {f : β → Except ε γ} {c : γ} :
    x >>= f = .ok c ↔ ∃ b, x = .ok b ∧ f b = .ok c := by
  cases x with
  | error _ =>
    constructor
    · intro h
      contradiction
    · rintro ⟨b, hb, -⟩
      contradiction
  | ok b =>
    constructor
    · intro h
      exact ⟨b, rfl, h⟩
    · rintro ⟨b', hb, h⟩
      obtain rfl := Except.ok.inj hb
      exact h

/-- A run that ends by returning what it makes of one result. -/
theorem return_eq_ok {ε β γ : Type} {x : Except ε β} {f : β → γ} {c : γ} :
    (do let b ← x; return f b) = .ok c ↔ ∃ b, x = .ok b ∧ f b = c :=
  bind_eq_ok.trans (exists_congr fun _ => and_congr_right' ⟨Except.ok.inj, congrArg Except.ok⟩)

/-- A run that ends by returning what it makes of two results. -/
theorem return_both_eq_ok {ε β γ δ : Type} {x : Except ε β} {y : Except ε γ} {f : β → γ → δ}
    {d : δ} :
    (do let b ← x; let c ← y; return f b c) = .ok d ↔
      ∃ b, x = .ok b ∧ ∃ c, y = .ok c ∧ f b c = d :=
  bind_eq_ok.trans (exists_congr fun _ => and_congr_right' return_eq_ok)

/-- A run that fails at once where a test succeeds. -/
theorem check_eq_ok {ε β : Type} {test : Bool} {err : ε} {x : Except ε β} {b : β} :
    (do
      if test then throw err
      x) = .ok b ↔ test = false ∧ x = .ok b := by
  cases test with
  | false => exact (and_iff_right rfl).symm
  | true =>
    constructor
    · intro h
      contradiction
    · rintro ⟨h, -⟩
      contradiction

theorem bind_eq_error {ε β γ : Type} {x : Except ε β} {f : β → Except ε γ} {err : ε} :
    x >>= f = .error err ↔ x = .error err ∨ ∃ b, x = .ok b ∧ f b = .error err := by
  cases x with
  | error err' =>
    constructor
    · intro h
      exact .inl (congrArg Except.error (Except.error.inj h))
    · rintro (h | ⟨b, hb, -⟩)
      · exact congrArg Except.error (Except.error.inj h)
      · contradiction
  | ok b =>
    constructor
    · intro h
      exact .inr ⟨b, rfl, h⟩
    · rintro (h | ⟨b', hb, h⟩)
      · contradiction
      · obtain rfl := Except.ok.inj hb
        exact h

theorem exists_error_of_ne_ok {ε β : Type} {x : Except ε β} (h : ∀ b, x ≠ .ok b) :
    ∃ err, x = .error err := by
  cases x with
  | error err => exact ⟨err, rfl⟩
  | ok b => exact absurd rfl (h b)

end SymbolicCalculus
