import SymbolicCalculus.Proofs.CommonFactorSize

/-!
# The search for a common factor ends

The search is a recursion whose calls are not all on parts of its arguments: with a sum, it goes on
with the factor that it found for the first term. A step of it is data (`SearchStep`), which says
what calls are made. No call is on as many nodes as the pair (`isWithin_searchStep`), since what is
found has no more nodes than the pair that it was found for. So the number of steps that the search
is given is never used up, and the search satisfies its own equation (`commonFactor?_ends`).
-/

namespace SymbolicCalculus.Expr

/-! ## Steps -/

/-- How the search for the common factor of two expressions goes on. -/
inductive SearchStep where
  /-- It is over. -/
  | done (result : Option (Expr Rat))
  /-- It goes on with another pair. -/
  | pair (a b : Expr Rat)
  /-- It goes on with a term of a sum, and then with what was found and the other term. -/
  | terms (left right other : Expr Rat)

namespace SearchStep

variable {next next' : Expr Rat → Expr Rat → Option (Expr Rat)}

/-- What the search finds, if `next` is what it finds for other pairs. -/
def result (next : Expr Rat → Expr Rat → Option (Expr Rat)) : SearchStep → Option (Expr Rat)
  | done g => g
  | pair a b => next a b
  | terms left right other => (next left other).bind (next · right)

/-- The pairs that it goes on with. -/
def calls (next : Expr Rat → Expr Rat → Option (Expr Rat)) :
    SearchStep → List (Expr Rat × Expr Rat)
  | done _ => []
  | pair a b => [(a, b)]
  | terms left right other => (left, other) :: ((next left other).map (·, right)).toList

/-- The result depends on nothing but the calls. -/
theorem result_congr {step : SearchStep}
    (h : ∀ call ∈ step.calls next, next' call.1 call.2 = next call.1 call.2) :
    step.result next' = step.result next := by
  cases step with
  | done g => rfl
  | pair a b => exact h (a, b) (List.mem_singleton_self _)
  | terms left right other =>
    have hleft : next' left other = next left other := h (left, other) List.mem_cons_self
    rw [result, result, hleft]
    cases hfound : next left other with
    | none => rfl
    | some g => exact h (g, right) (by simp [calls, hfound])

/-- The step is on fewer nodes than `size`, and what it ends with has no more. -/
def IsWithin (size : Nat) : SearchStep → Prop
  | done g => ∀ e, g = some e → e.size ≤ size
  | pair a b => a.size + b.size < size
  | terms left right other => left.size + right.size + other.size < size

/-- If no pair has a larger common factor then no call is on more nodes. -/
theorem IsWithin.lt_of_mem_calls {size : Nat} {step : SearchStep} (h : step.IsWithin size)
    (hnext : ∀ a b g, next a b = some g → g.size ≤ a.size + b.size) :
    ∀ call ∈ step.calls next, call.1.size + call.2.size < size := by
  intro call hmem
  cases step with
  | done g => contradiction
  | pair a b =>
    obtain rfl := List.mem_singleton.mp hmem
    exact h
  | terms left right other =>
    have hsize : left.size + right.size + other.size < size := h
    rcases List.mem_cons.mp hmem with rfl | hmem
    · dsimp only
      omega
    · obtain ⟨g, hfound, rfl⟩ : ∃ g, next left other = some g ∧ (g, right) = call := by
        simpa using hmem
      have hle := hnext left other g hfound
      dsimp only
      omega

theorem IsWithin.size_result_le {size : Nat} {step : SearchStep} (h : step.IsWithin size)
    (hnext : ∀ a b g, next a b = some g → g.size ≤ a.size + b.size) {g : Expr Rat}
    (hresult : step.result next = some g) : g.size ≤ size := by
  cases step with
  | done g => exact h _ hresult
  | pair a b => exact (hnext a b g hresult).trans (Nat.le_of_lt h)
  | terms left right other =>
    have hsize : left.size + right.size + other.size < size := h
    obtain ⟨g', hleft, hright⟩ := Option.bind_eq_some_iff.mp hresult
    have hle := hnext left other g' hleft
    have hle' := hnext g' right g hright
    omega

end SearchStep

/-! ## The steps of the search -/

section search

variable {a b g : Expr Rat}

/-- The step that the search makes on a pair. -/
def searchStep (a b : Expr Rat) : SearchStep :=
  if a.isZero then .done (some b)
  else if b.isZero then .done (some a)
  else if a == b then .done (some a)
  else
    match a.constant?, b.constant? with
    | some x, some y => .done ((Scalar.gcd? x y).map const)
    | _, _ =>
      if (a.powerBase?.isSome || b.powerBase?.isSome) && (a.isProduct || b.isProduct) then
        .done (sharedByChains? a b)
      else
        match a.powerBase?, b.powerBase? with
        | some p, some q => .pair p q
        | some p, none => .pair p b
        | none, some q => .pair q a
        | none, none =>
          match a.terms?, b.terms? with
          | some (l, r), _ => .terms l r b
          | none, some (l, r) => .terms l r a
          | none, none => .done (sharedByChains? a b)

theorem commonFactorWithin?_succ (steps : Nat) (a b : Expr Rat) :
    commonFactorWithin? (steps + 1) a b = (searchStep a b).result (commonFactorWithin? steps) := by
  rw [commonFactorWithin?, searchStep]
  by_cases ha : a.isZero = true
  · rw [if_pos ha, if_pos ha]
    rfl
  by_cases hb : b.isZero = true
  · rw [if_neg ha, if_neg ha, if_pos hb, if_pos hb]
    rfl
  by_cases hab : (a == b) = true
  · rw [if_neg ha, if_neg ha, if_neg hb, if_neg hb, if_pos hab, if_pos hab]
    rfl
  rw [if_neg ha, if_neg ha, if_neg hb, if_neg hb, if_neg hab, if_neg hab]
  -- What follows the test for two constants is the same wherever there are not two of them.
  cases a.constant? <;> cases b.constant?
  case some.some => rfl
  all_goals
    dsimp only
    split
    · rfl
    · cases a.powerBase? <;> cases b.powerBase?
      case none.none =>
        rcases a.terms? with _ | ⟨l, r⟩ <;> rcases b.terms? with _ | ⟨l', r'⟩ <;> rfl
      all_goals rfl

theorem size_powerBase?_lt {e p : Expr Rat} (h : e.powerBase? = some p) : p.size < e.size := by
  obtain ⟨n, rfl⟩ := powerBase?_eq_some.mp h
  have hpos := size_pos n
  rw [size]
  omega

theorem size_terms?_lt {e l r : Expr Rat} (h : e.terms? = some (l, r)) :
    l.size + r.size < e.size := by
  rcases terms?_eq_some.mp h with rfl | rfl
  · exact Nat.lt_succ_self _
  · exact Nat.lt_succ_self _

/-- No step is on more nodes. -/
theorem isWithin_searchStep (a b : Expr Rat) : (searchStep a b).IsWithin (a.size + b.size) := by
  unfold searchStep
  split
  · rintro e ⟨⟩
    exact Nat.le_add_left _ _
  split
  · rintro e ⟨⟩
    exact Nat.le_add_right _ _
  split
  · rintro e ⟨⟩
    exact Nat.le_add_right _ _
  split
  · intro e he
    obtain ⟨k, -, rfl⟩ := Option.map_eq_some_iff.mp he
    have hpos := size_pos a
    rw [size]
    omega
  split
  · exact fun e he => size_sharedByChains?_le he
  split
  · next p q hp hq => exact Nat.add_lt_add (size_powerBase?_lt hp) (size_powerBase?_lt hq)
  · next p hp _ => exact Nat.add_lt_add_right (size_powerBase?_lt hp) _
  · next q _ hq =>
    have hlt := size_powerBase?_lt hq
    show q.size + a.size < a.size + b.size
    omega
  split
  · next l r hterms => exact Nat.add_lt_add_right (size_terms?_lt hterms) _
  · next l r _ hterms =>
    have hlt := size_terms?_lt hterms
    show l.size + r.size + a.size < a.size + b.size
    omega
  · exact fun e he => size_sharedByChains?_le he

theorem size_commonFactorWithin?_le {steps : Nat} (h : commonFactorWithin? steps a b = some g) :
    g.size ≤ a.size + b.size := by
  induction steps generalizing a b g with
  | zero => contradiction
  | succ steps ih =>
    rw [commonFactorWithin?_succ] at h
    exact (isWithin_searchStep a b).size_result_le (fun _ _ _ => ih) h

theorem commonFactorWithin?_eq {m n : Nat} (hm : a.size + b.size ≤ m) (hn : a.size + b.size ≤ n) :
    commonFactorWithin? m a b = commonFactorWithin? n a b := by
  have hpos := size_pos a
  induction m generalizing n a b with
  | zero => omega
  | succ m ih =>
    obtain ⟨n, rfl⟩ := Nat.exists_eq_succ_of_ne_zero (show n ≠ 0 by omega)
    rw [commonFactorWithin?_succ, commonFactorWithin?_succ]
    refine SearchStep.result_congr fun call hmem => ?_
    have hlt := (isWithin_searchStep a b).lt_of_mem_calls
      (fun _ _ _ => size_commonFactorWithin?_le) call hmem
    exact ih (by omega) (by omega) (size_pos _)

/-- The search satisfies its own equation. -/
theorem commonFactor?_eq (a b : Expr Rat) :
    commonFactor? a b = (searchStep a b).result commonFactor? := by
  have hpos := size_pos a
  rw [commonFactor?, commonFactorWithin?_eq (n := a.size + b.size + 1) le_rfl (Nat.le_succ _),
    commonFactorWithin?_succ]
  symm
  refine SearchStep.result_congr fun call hmem => ?_
  have hlt := (isWithin_searchStep a b).lt_of_mem_calls
    (fun _ _ _ => size_commonFactorWithin?_le) call hmem
  exact commonFactorWithin?_eq le_rfl (Nat.le_of_lt hlt)

/-- **The search for a common factor ends.** A common factor has no more nodes than the two
expressions together. Each call that the search makes is on fewer nodes than that, also the second
one for a sum, which is on the factor that the first one found. So the search is never cut short:
it satisfies its own equation, and more steps find nothing else. -/
theorem commonFactor?_ends (a b : Expr Rat) :
    (∀ g, commonFactor? a b = some g → g.size ≤ a.size + b.size) ∧
      (∀ call ∈ (searchStep a b).calls commonFactor?,
        call.1.size + call.2.size < a.size + b.size) ∧
      (∀ steps, commonFactorWithin? (steps + 1) a b =
        (searchStep a b).result (commonFactorWithin? steps)) ∧
      commonFactor? a b = (searchStep a b).result commonFactor? ∧
      ∀ steps, a.size + b.size ≤ steps → commonFactorWithin? steps a b = commonFactor? a b := by
  refine ⟨fun g => size_commonFactorWithin?_le, ?_, fun steps => commonFactorWithin?_succ steps a b,
    commonFactor?_eq a b, fun steps hle => commonFactorWithin?_eq hle le_rfl⟩
  exact (isWithin_searchStep a b).lt_of_mem_calls fun _ _ _ => size_commonFactorWithin?_le

/-- For `(x*y)^2*2 + y` and `x*x*y*y`, the search goes on with `x^2*y^2`, which has more nodes than
the power that it was found in. -/
theorem commonFactor?_ends_of_sum :
    let x : Expr Rat := .param "x"
    let y : Expr Rat := .param "y"
    let l : Expr Rat := .product (.power (.product x y) (nat 2)) (nat 2)
    let b : Expr Rat := .product (.product (.product x x) y) y
    let g : Expr Rat := .product (.power x (nat 2)) (.power y (nat 2))
    (searchStep (.sum l y) b).calls commonFactor? = [(l, b), (g, y)] ∧
      l.size + b.size < (Expr.sum l y).size + b.size ∧
      g.size + y.size < (Expr.sum l y).size + b.size ∧ commonFactor? (.sum l y) b = some y := by
  intro x y l b g
  have hcalls : (searchStep (.sum l y) b).calls commonFactor? = [(l, b), (g, y)] := by
    decide +kernel
  obtain ⟨-, hlt, -, heq, -⟩ := commonFactor?_ends (.sum l y) b
  rw [hcalls] at hlt
  refine ⟨hcalls, hlt _ List.mem_cons_self, hlt _ (List.mem_cons_of_mem _ List.mem_cons_self), ?_⟩
  rw [heq]
  decide +kernel

end search

end SymbolicCalculus.Expr
