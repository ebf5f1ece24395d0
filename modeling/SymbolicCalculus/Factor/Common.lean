import SymbolicCalculus.Factor.Chain

/-!
# Common factors

The product of the factors that two expressions share, as far as their structure shows it: of two
integers the greatest common divisor, of a sum what both its terms share with the other expression,
and otherwise the common part of two chains. The result may be trivial, such as the constant one.
-/

namespace SymbolicCalculus.Expr

variable {α : Type} [Scalar α]

/-- Does the expression have a chain of its own, as products and negations do? -/
def isProduct : Expr α → Bool
  | product _ _ | neg _ => true
  | _ => false

/-- The terms of a sum or a difference. -/
def terms? : Expr α → Option (Expr α × Expr α)
  | sum a b | difference a b => some (a, b)
  | _ => none

/-- The greatest common divisor of the coefficients as a factor, unless it is trivial. -/
def sharedCoefficient (a b : Expr α) : List (Factor α) :=
  match Scalar.gcd? a.coefficient b.coefficient with
  | some k => if Nat.cast 1 < k then [⟨const k, Nat.cast 1⟩] else []
  | none => []

/-- A factor as often as an expression contains it, unless it is a constant or not contained. -/
def sharedFactor (a : Expr α) (factor : Factor α) : List (Factor α) :=
  if factor.base.constant?.isSome then []
  else
    let times := containment factor a
    if Nat.cast 1 ≤ times then [⟨factor.base, times⟩] else []

/-- The product of some factors, if there is one. -/
def productOf? : List (Factor α) → Option (Expr α)
  | [] => none
  | factor :: rest => some (rest.foldl (fun e f => product e f.toExpr) factor.toExpr)

/-- The product of the factors in the chain of `b` that `a` contains, after the common part of the
coefficients. -/
def sharedFactors? (a b : Expr α) : Option (Expr α) :=
  productOf? (sharedCoefficient a b ++ b.chain.flatMap (sharedFactor a))

/-- What two expressions share by either chain. -/
def sharedByChains? (a b : Expr α) : Option (Expr α) :=
  (sharedFactors? a b).orElse fun _ => sharedFactors? b a

/-- The common factor of two expressions, within so many steps. -/
def commonFactorWithin? : Nat → Expr α → Expr α → Option (Expr α)
  | 0, _, _ => none
  | steps + 1, a, b =>
    if a.isZero then some b
    else if b.isZero then some a
    else if a == b then some a
    else
      match a.constant?, b.constant? with
      | some x, some y => (Scalar.gcd? x y).map const
      | _, _ =>
        if (a.powerBase?.isSome || b.powerBase?.isSome) && (a.isProduct || b.isProduct) then
          sharedByChains? a b
        else
          match a.powerBase?, b.powerBase? with
          | some p, some q => commonFactorWithin? steps p q
          | some p, none => commonFactorWithin? steps p b
          | none, some q => commonFactorWithin? steps q a
          | none, none =>
            match a.terms?, b.terms? with
            | some (l, r), _ => (commonFactorWithin? steps l b).bind (commonFactorWithin? steps · r)
            | none, some (l, r) =>
              (commonFactorWithin? steps l a).bind (commonFactorWithin? steps · r)
            | none, none => sharedByChains? a b

/-- The common factor of two expressions, if they have one. Each step is on a pair with fewer nodes
than the one before. -/
def commonFactor? (a b : Expr α) : Option (Expr α) :=
  commonFactorWithin? (a.size + b.size) a b

end SymbolicCalculus.Expr
