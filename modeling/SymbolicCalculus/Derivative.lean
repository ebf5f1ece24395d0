import SymbolicCalculus.Expr.Text
import SymbolicCalculus.Expr.Value

/-!
# Derivatives

The derivative of an expression by the rules for sums, products, quotients, powers with an exponent
that does not mention the parameter, and the chain rule. The outer derivative of a builtin function
is a template with placeholders for its arguments. Nothing is simplified.
-/

namespace SymbolicCalculus

/-- A construct that there is no rule for. -/
inductive Unsupported (α : Type) where
  /-- The exponent of a power mentions the parameter. -/
  | symbolicExponent (exponent : Expr α)
  /-- The base of a logarithm mentions the parameter. -/
  | variableLogBase (base : Expr α)
  | unknownFunction (name : String)
  | wrongArity (f : Builtin) (found : Nat)
  /-- A function has one parameter. -/
  | parameterCount (found : Nat)
  deriving DecidableEq

variable {α : Type}

namespace Unsupported

def message [Numeral α] : Unsupported α → String
  | symbolicExponent exponent =>
    let text := exponent.text
    s!"the exponent, \"{text}\", isn't constant"
  | variableLogBase base =>
    let text := base.text
    s!"the logarithm's base, \"{text}\", isn't constant"
  | unknownFunction name => s!"\"{name}\" is not a supported function"
  | wrongArity f found =>
    let name := f.name
    s!"{name} doesn't accept {found} argument(s)"
  | parameterCount found => s!"a function must have exactly one parameter, found {found}"

end Unsupported

namespace Expr

/-- The call of a function by its name, with as many arguments as it accepts. -/
def call (name : String) (arguments : List (Expr α)) : Except (Unsupported α) (Expr α) :=
  match Builtin.ofName? name with
  | none => .error (.unknownFunction name)
  | some f =>
    match accepted? f arguments with
    | some e => .ok e
    | none => .error (.wrongArity f arguments.length)

end Expr

namespace Builtin

/-- The parameter that stands for an argument in a template. -/
def placeholder (index : Nat) : String :=
  s!"__arg{index}__"

/-- The derivative of a function by its first argument. -/
def derivativeTemplate [NatCast α] (f : Builtin) (argumentCount : Nat) : Expr α :=
  let u := Expr.param (placeholder 0)
  match f, argumentCount with
  | log, 2 => .quotient (.nat 1) (.product u (.call₁ log (.param (placeholder 1))))
  | log, _ => .quotient (.nat 1) u
  | log10, _ => .quotient (.nat 1) (.product u (.call₁ log (.nat 10)))
  | sine, _ => .call₁ cosine u
  | cosine, _ => .neg (.call₁ sine u)
  | tangent, _ => .quotient (.nat 1) (.power (.call₁ cosine u) (.nat 2))

/-- A template with the arguments in place of the placeholders from `index` on, one placeholder
after the other. -/
def fill (template : Expr α) (index : Nat) : List (Expr α) → Expr α
  | [] => template
  | x :: rest => fill (template.substitute (placeholder index) x) (index + 1) rest

/-- The derivative of a call by its first argument, at the arguments. -/
def outerDerivative [NatCast α] (f : Builtin) (arguments : List (Expr α)) : Expr α :=
  fill (f.derivativeTemplate arguments.length) 0 arguments

end Builtin

namespace Expr

/-- The derivative by the parameter `p`. -/
def derivative [NatCast α] (p : String) : Expr α → Except (Unsupported α) (Expr α)
  | param q => .ok (if q = p then nat 1 else nat 0)
  | const _ => .ok (nat 0)
  | neg a => do
    let a' ← a.derivative p
    return neg a'
  | binary .plus a b => do
    let a' ← a.derivative p
    let b' ← b.derivative p
    return sum a' b'
  | binary .minus a b => do
    let a' ← a.derivative p
    let b' ← b.derivative p
    return difference a' b'
  | binary .times a b => do
    let a' ← a.derivative p
    let b' ← b.derivative p
    return sum (product a' b) (product a b')
  | binary .divide a b => do
    let a' ← a.derivative p
    let b' ← b.derivative p
    return quotient (difference (product a' b) (product a b')) (power b (nat 2))
  | binary .power a n => do
    if n.dependsOn p then throw (.symbolicExponent n)
    let a' ← a.derivative p
    return product (product n (power a (difference n (nat 1)))) a'
  | call₀ f => throw (.wrongArity f 0)
  | call₁ f x => do
    let x' ← x.derivative p
    return product (f.outerDerivative [x]) x'
  | call₂ f x base => do
    if base.dependsOn p then throw (.variableLogBase base)
    let x' ← x.derivative p
    return product (f.outerDerivative [x, base]) x'

end Expr

end SymbolicCalculus
