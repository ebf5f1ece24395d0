import SymbolicCalculus.Scalar

/-!
# Doubles

A double as its 64 bits: sign, eleven bits of exponent, 52 bits of fraction. The bits rather than
the number are kept because the sign of a NaN shows in a formula's text. Arithmetic rounds to the
nearest double; `Binary64.arithmetic` says which NaN an operation returns.
-/

namespace SymbolicCalculus

/-- A double, as its bits. -/
structure Binary64 where
  bits : UInt64
  deriving DecidableEq

namespace Binary64

/-- The number that the bits stand for. -/
def toFloat (x : Binary64) : Float :=
  Float.ofBits x.bits

/-- The bits of a number. -/
def ofFloat (x : Float) : Binary64 :=
  ⟨x.toBits⟩

/-! ## Fields -/

/-- The bit of the sign. -/
def signMask : UInt64 := 0x8000000000000000

/-- The NaN of an operation that has no result. -/
def invalid : Binary64 := ⟨0xFFF8000000000000⟩

/-- Two to the power −52, the distance from one to the next double. -/
def epsilon : Binary64 := ⟨0x3CB0000000000000⟩

/-- Is the sign bit set? -/
def isNegative (x : Binary64) : Bool :=
  x.bits &&& signMask != 0

def exponentField (x : Binary64) : Nat :=
  ((x.bits >>> 52) &&& 0x7FF).toNat

def fractionField (x : Binary64) : Nat :=
  (x.bits &&& 0xFFFFFFFFFFFFF).toNat

/-- Neither infinite nor NaN. -/
def isFinite (x : Binary64) : Bool :=
  x.exponentField != 0x7FF

def isNaN (x : Binary64) : Bool :=
  !x.isFinite && x.fractionField != 0

/-- The integer that a finite double's magnitude is a power of two times. -/
def significand (x : Binary64) : Nat :=
  if x.exponentField = 0 then x.fractionField else (1 <<< 52) + x.fractionField

/-- The exponent of that power of two. -/
def scale (x : Binary64) : Int :=
  if x.exponentField = 0 then -1074 else x.exponentField - 1075

/-! ## Operations -/

def neg (x : Binary64) : Binary64 :=
  ⟨x.bits ^^^ signMask⟩

def magnitude (x : Binary64) : Binary64 :=
  ⟨x.bits &&& ~~~signMask⟩

/-- An operation on numbers as one on doubles: the first operand that is NaN is the result, and an
operation on numbers that has no result returns `invalid`. -/
def arithmetic (op : Float → Float → Float) (x y : Binary64) : Binary64 :=
  if x.isNaN then x
  else if y.isNaN then y
  else
    let result := op x.toFloat y.toFloat
    if result.isNaN then invalid else ofFloat result

/-- A function of numbers as one of doubles. -/
def lift (f : Float → Float) (x : Binary64) : Binary64 :=
  ofFloat (f x.toFloat)

/-- Are the values the same? Two zeros are, and two NaNs. -/
def sameValue (x y : Binary64) : Bool :=
  x.toFloat == y.toFloat || (x.isNaN && y.isNaN)

/-- The smaller of two numbers, or the one that is a number. -/
def minimum (x y : Binary64) : Binary64 :=
  if y.isNaN then x
  else if x.isNaN then y
  else if y.toFloat < x.toFloat then y else x

/-- The double nearest to a decimal. -/
def ofDecimal (digits places : Nat) : Binary64 :=
  ofFloat (Float.ofScientific digits true places)

/-- The integer that the double is, if it is one. -/
def whole? (x : Binary64) : Option Int :=
  if !x.isFinite then none
  else
    let magnitude? :=
      if 0 ≤ x.scale then some (x.significand <<< x.scale.toNat)
      else
        let unit := 1 <<< (-x.scale).toNat
        if x.significand % unit = 0 then some (x.significand / unit) else none
    magnitude?.map fun n => if x.isNegative then -(n : Int) else n

instance : NatCast Binary64 := ⟨fun n => ofFloat (Float.ofNat n)⟩
instance : Add Binary64 := ⟨arithmetic (· + ·)⟩
instance : Sub Binary64 := ⟨arithmetic (· - ·)⟩
instance : Mul Binary64 := ⟨arithmetic (· * ·)⟩
instance : Div Binary64 := ⟨arithmetic (· / ·)⟩
instance : Neg Binary64 := ⟨neg⟩
instance : BEq Binary64 := ⟨sameValue⟩
instance : LT Binary64 := ⟨fun x y => x.toFloat < y.toFloat⟩
instance : LE Binary64 := ⟨fun x y => x.toFloat ≤ y.toFloat⟩
instance : Min Binary64 := ⟨minimum⟩

instance (x y : Binary64) : Decidable (x < y) :=
  inferInstanceAs (Decidable (x.toFloat < y.toFloat))

instance (x y : Binary64) : Decidable (x ≤ y) :=
  inferInstanceAs (Decidable (x.toFloat ≤ y.toFloat))

/-- The power of two doubles. -/
def power (x y : Binary64) : Binary64 :=
  ofFloat (x.toFloat ^ y.toFloat)

instance : Arithmetic Binary64 where
  power := power

/-- Zero and one are recognized up to a rounding error, and an operation has a number as its result
if that is finite. -/
instance : Scalar Binary64 where
  decidableLT _ _ := inferInstance
  decidableLE _ _ := inferInstance
  magnitude := magnitude
  isZero x := decide (x.magnitude ≤ epsilon)
  isOne x := decide ((x - Nat.cast 1).magnitude ≤ epsilon)
  whole? := whole?
  isDefined op x y := (op.apply x y).isFinite

instance : Elementary Binary64 where
  ln := lift Float.log
  log10 := lift Float.log10
  sine := lift Float.sin
  cosine := lift Float.cos
  tangent := lift Float.tan
  undefined := ⟨0x7FF8000000000000⟩

end Binary64

end SymbolicCalculus
