import SymbolicCalculus.Formula.Bracketing

/-!
# What precedence climbing reads

The readings of `Term.expression?` and the functions beside it as plain pairs of a term and the
tokens after it, with one equation for each way in which a reading goes on.
-/

namespace SymbolicCalculus.Term

/-- A reading without the bound on the tokens after it. -/
def Reading.pair {β : Type} {n : Nat} (r : Reading β n) : β × List Token :=
  (r.value, r.rest)

/-- An operand with the operators after it that are no weaker than `min`, and the tokens left. -/
def readExpression (min : Precedence) (ts : List Token) : Option (Term × List Token) :=
  (expression? min ts).map Reading.pair

/-- A term joined with the operators after it that are no weaker than `min`, and the tokens left. -/
def readClimb (min : Precedence) (left : Term) (ts : List Token) : Option (Term × List Token) :=
  (climb? min left ts).map Reading.pair

/-- An operand, and the tokens left. -/
def readOperand (ts : List Token) : Option (Term × List Token) :=
  (operand? ts).map Reading.pair

theorem readExpression_eq (min : Precedence) (ts : List Token) :
    readExpression min ts =
      (readOperand ts).bind fun (left, rest) => readClimb min left rest := by
  rw [readExpression, readOperand, expression?]
  cases operand? ts with
  | none => rfl
  | some left =>
    show Option.map _ (Option.map _ _) = _
    rw [Option.map_map]
    rfl

/-! ## Operators -/

/-- Tokens that do not go on with an operator as strong as `min`. -/
def Stops (min : Precedence) (ts : List Token) : Prop :=
  ∀ op rest, ts = .operator op :: rest → op.precedence.rank < min.rank

theorem stops_nil (min : Precedence) : Stops min [] := nofun

theorem stops_closeParen (min : Precedence) (rest : List Token) :
    Stops min (.closeParen :: rest) := nofun

theorem stops_comma (min : Precedence) (rest : List Token) : Stops min (.comma :: rest) := nofun

theorem stops_operator {min : Precedence} {op : Operator} (h : op.precedence.rank < min.rank)
    (rest : List Token) : Stops min (.operator op :: rest) := by
  rintro op rest ⟨rfl, rfl⟩
  exact h

/-- What does not go on with a strong operator need not stop before a weak one. -/
theorem Stops.mono {m n : Precedence} {ts : List Token} (h : Stops m ts) (hmn : m.rank ≤ n.rank) :
    Stops n ts :=
  fun op rest hts => Nat.lt_of_lt_of_le (h op rest hts) hmn

theorem readClimb_of_stops {min : Precedence} {ts : List Token} (h : Stops min ts) (left : Term) :
    readClimb min left ts = some (left, ts) := by
  rw [readClimb, climb?.eq_def]
  split
  · next op rest => rw [if_pos (h op rest rfl)]; rfl
  · rfl

theorem readClimb_operator {min : Precedence} {op : Operator}
    (h : min.rank ≤ op.precedence.rank) (left : Term) (rest : List Token) :
    readClimb min left (.operator op :: rest) =
      (readExpression op.rightPrecedence rest).bind fun (right, rest) =>
        readClimb min (binary op left right) rest := by
  rw [readClimb, readExpression, climb?, if_neg (by omega)]
  cases expression? op.rightPrecedence rest with
  | none => rfl
  | some right =>
    show Option.map _ (Option.map _ _) = _
    rw [Option.map_map]
    rfl

/-! ## Operands -/

theorem readOperand_number (digits : List Char) (rest : List Token) :
    readOperand (.number digits :: rest) = some (number digits, rest) := by
  rw [readOperand, operand?]
  rfl

theorem readOperand_letter (c : Char) (rest : List Token) :
    readOperand (.letter c :: rest) = some (letter c, rest) := by
  rw [readOperand, operand?]
  rfl

theorem readOperand_minus (rest : List Token) :
    readOperand (.operator .minus :: rest) =
      (readExpression .exponent rest).map fun (t, rest) => (neg t, rest) := by
  rw [readOperand, operand?, readExpression, Option.map_map, Option.map_map]
  rfl

theorem readOperand_plus (rest : List Token) :
    readOperand (.operator .plus :: rest) = readExpression .exponent rest := by
  rw [readOperand, operand?, readExpression, Option.map_map]
  rfl

theorem readOperand_group {ts rest : List Token} {t : Term}
    (h : readExpression .additive ts = some (t, .closeParen :: rest)) :
    readOperand (.openParen :: ts) = some (t, rest) := by
  obtain ⟨⟨t', rest', hlt⟩, hr, heq⟩ := Option.map_eq_some_iff.mp h
  obtain ⟨rfl, rfl⟩ : t' = t ∧ rest' = .closeParen :: rest := by simpa [Reading.pair] using heq
  rw [readOperand, operand?, hr]
  rfl

/-- A call with the arguments that are read before the parenthesis that closes it. -/
def readArguments (ts : List Token) : Option (List Term × List Token) :=
  (arguments? ts).map Reading.pair

theorem readOperand_call (f : Builtin) (ts : List Token) :
    readOperand (.function f :: .openParen :: ts) =
      (readArguments ts).map fun (arguments, rest) => (call f arguments, rest) := by
  rw [readOperand, operand?, readArguments, Option.map_map, Option.map_map]
  rfl

theorem readArguments_last {ts rest : List Token} {t : Term}
    (h : readExpression .additive ts = some (t, .closeParen :: rest)) :
    readArguments ts = some ([t], rest) := by
  obtain ⟨⟨t', rest', hlt⟩, hr, heq⟩ := Option.map_eq_some_iff.mp h
  obtain ⟨rfl, rfl⟩ : t' = t ∧ rest' = .closeParen :: rest := by simpa [Reading.pair] using heq
  rw [readArguments, arguments?, hr]
  rfl

theorem readArguments_comma {ts rest : List Token} {t : Term}
    (h : readExpression .additive ts = some (t, .comma :: rest)) :
    readArguments ts =
      (readArguments rest).map fun (arguments, rest) => (t :: arguments, rest) := by
  obtain ⟨⟨t', rest', hlt⟩, hr, heq⟩ := Option.map_eq_some_iff.mp h
  obtain ⟨rfl, rfl⟩ : t' = t ∧ rest' = .comma :: rest := by simpa [Reading.pair] using heq
  rw [readArguments, arguments?, hr, readArguments]
  show Option.map _ (Option.map _ _) = _
  rw [Option.map_map, Option.map_map]
  rfl

theorem ofTokens?_eq_some {ts : List Token} {t : Term}
    (h : readExpression .additive ts = some (t, [])) : ofTokens? ts = some t := by
  obtain ⟨⟨t', rest, hlt⟩, hr, heq⟩ := Option.map_eq_some_iff.mp h
  obtain ⟨rfl, rfl⟩ : t' = t ∧ rest = [] := by simpa [Reading.pair] using heq
  rw [ofTokens?, hr]

/-- No term is made of all the tokens if some are left after it. -/
theorem ofTokens?_eq_none {ts rest : List Token} {token : Token} {t : Term}
    (h : readExpression .additive ts = some (t, token :: rest)) : ofTokens? ts = none := by
  obtain ⟨⟨t', rest', hlt⟩, hr, heq⟩ := Option.map_eq_some_iff.mp h
  obtain ⟨rfl, rfl⟩ : t' = t ∧ rest' = token :: rest := by simpa [Reading.pair] using heq
  rw [ofTokens?, hr]

end SymbolicCalculus.Term
