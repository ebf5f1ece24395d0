import SymbolicCalculus.Factor.Chain

/-!
# Division without a remainder

An expression divided by a factor that it contains. A power of a base is taken from the factors of a
product, from both terms of a sum, and from the numerator of a quotient; a constant is taken from
one coefficient, and only if the quotient is an integer.
-/

namespace SymbolicCalculus.Expr

variable {α : Type} [Scalar α]

/-- What is left of `inner ^ k` when its base is taken out `n` times. -/
def lowerPower? (inner : Expr α) (k n : α) : Option (Expr α) :=
  let remaining := k - n
  if remaining < Nat.cast 0 then none
  else if remaining == Nat.cast 0 then some (nat 1)
  else if remaining == Nat.cast 1 then some inner
  else some (power inner (const remaining))

/-- An expression divided by the power `n` of a base. -/
def divideByPower? (base e : Expr α) (n : α) : Option (Expr α) :=
  if n ≤ Nat.cast 0 then some e
  else if e == base then
    if n == Nat.cast 1 then some (nat 1) else none
  else
    match e with
    | product a b => do
      let fromLeft := min (occurrences base a) n
      let a' ← divideByPower? base a fromLeft
      let b' ← divideByPower? base b (n - fromLeft)
      return product a' b'
    | sum a b => do
      let a' ← divideByPower? base a n
      let b' ← divideByPower? base b n
      return sum a' b'
    | difference a b => do
      let a' ← divideByPower? base a n
      let b' ← divideByPower? base b n
      return difference a' b'
    | quotient a b => do
      let a' ← divideByPower? base a n
      return quotient a' b
    | power a (const k) =>
      if !Scalar.isPositiveWhole k then none
      else if a == base then lowerPower? a k n
      else if Scalar.isWhole (n / k) then do
        let a' ← divideByPower? base a (n / k)
        return power a' (const k)
      else none
    | neg a => do
      let a' ← divideByPower? base a n
      return neg a'
    | _ => none

/-- An expression divided by a constant. -/
def divideByConstant? (k : α) (e : Expr α) : Option (Expr α) :=
  if k == Nat.cast 1 then some e
  else
    match e with
    | const a =>
      match Operator.result? .divide a k with
      | some q => if Scalar.isWhole q then some (const q) else none
      | none => none
    | product a b =>
      match divideByConstant? k a with
      | some a' => some (product a' b)
      | none => (divideByConstant? k b).map (product a)
    | sum a b => do
      let a' ← divideByConstant? k a
      let b' ← divideByConstant? k b
      return sum a' b'
    | difference a b => do
      let a' ← divideByConstant? k a
      let b' ← divideByConstant? k b
      return difference a' b'
    | quotient a b => do
      let a' ← divideByConstant? k a
      return quotient a' b
    | neg a =>
      if k == -Nat.cast 1 then some a
      else (divideByConstant? k a).map neg
    | _ => none

/-- An expression divided by a factor. -/
def divideByFactor? (e : Expr α) (factor : Factor α) : Option (Expr α) :=
  match factor.base with
  | const k => divideByConstant? (Arithmetic.power k factor.exponent) e
  | base => divideByPower? base e factor.exponent

/-- An expression divided by the factors of a divisor, if it can be divided by each in turn. The
constants come last, when there is more left to take them from. -/
def divideOut? (e divisor : Expr α) : Option (Expr α) :=
  let (constants, others) := divisor.chain.partition fun factor => factor.base.constant?.isSome
  (others ++ constants).foldlM divideByFactor? e

end SymbolicCalculus.Expr
