/-!
# The shortest decimal of a rounded number

A format of limited precision holds one number for a whole interval of reals, its cell. The decimal
to write for it is the one with the fewest digits that lies in the cell, and of those the one
nearest to the number itself, the larger of two that are equally near.

A decimal with `n` digits lies on a grid whose spacing is a power of ten. If any point of a grid
lies in the cell then so does one of the two neighbours of the number on that grid, so it is enough
to look at these two for `1, 2, …` digits.
-/

namespace SymbolicCalculus.Decimal

/-- The reals that are held as the number `value / scale`: those from `lower / scale` to
`upper / scale`, with the ends if `closed`. -/
structure Cell where
  lower : Nat
  value : Nat
  upper : Nat
  scale : Nat
  closed : Bool

/-- A decimal: `digits` times ten to the power `exponent`. -/
structure Digits where
  digits : Nat
  exponent : Int

namespace Cell

/-- How many digits the integer part needs; for a number below one, zero or less by the count of
zeros behind the point. The number is below ten to this power and at least a tenth of it. -/
def magnitude (c : Cell) : Int :=
  if c.scale ≤ c.value then
    (Nat.toDigits 10 (c.value / c.scale)).length
  else
    let inverse := (c.scale + c.value - 1) / c.value - 1
    1 - (Nat.toDigits 10 inverse).length

/-- The factors `up` and `down` for which ten to the power `e` is `up / down`. -/
def powerOfTen (e : Int) : Nat × Nat :=
  (Nat.pow 10 e.toNat, Nat.pow 10 (-e).toNat)

/-- Is `k` times ten to the power `e` in the cell? -/
def holds (c : Cell) (k : Nat) (e : Int) : Bool :=
  let (up, down) := powerOfTen e
  let x := k * up * c.scale
  let (low, high) := (c.lower * down, c.upper * down)
  if c.closed then low ≤ x && x ≤ high else low < x && x < high

/-- The decimal in the cell that is a multiple of ten to the power `e` and a neighbour of the
number. -/
def onGrid? (c : Cell) (e : Int) : Option Digits :=
  let (up, down) := powerOfTen e
  let below := c.value * down / (c.scale * up)
  let above := below + 1
  let fromBelow := c.value * down - below * up * c.scale
  let fromAbove := above * up * c.scale - c.value * down
  match c.holds below e, c.holds above e with
  | true, true => some ⟨if fromBelow < fromAbove then below else above, e⟩
  | true, false => some ⟨below, e⟩
  | false, true => some ⟨above, e⟩
  | false, false => none

/-- The first grid with a hit, from the spacing ten to the power `e` down through `n` finer ones. -/
def firstOnGrid? (c : Cell) (e : Int) : Nat → Option Digits
  | 0 => none
  | n + 1 => (c.onGrid? e).orElse fun _ => firstOnGrid? c (e - 1) n

/-- The shortest decimal of the number, with at most `limit` digits. -/
def shortest? (c : Cell) (limit : Nat) : Option Digits :=
  c.firstOnGrid? (c.magnitude - 1) limit

end Cell

/-- The digits without a point: so many zeros are written after them or in front of them that the
last one gets its place. -/
def Digits.positional (d : Digits) : List Char :=
  let digits := Nat.toDigits 10 d.digits
  if 0 ≤ d.exponent then
    digits ++ List.replicate d.exponent.toNat '0'
  else
    let places := (-d.exponent).toNat
    if places < digits.length then
      digits.take (digits.length - places) ++ '.' :: digits.drop (digits.length - places)
    else
      '0' :: '.' :: (List.replicate (places - digits.length) '0' ++ digits)

/-- The same decimal with the zeros at the end of its digits moved into the exponent, for at most
`limit` zeros. -/
def Digits.stripped (limit : Nat) (d : Digits) : Digits :=
  match limit with
  | 0 => d
  | n + 1 =>
    if d.digits ≠ 0 ∧ d.digits % 10 = 0 then stripped n ⟨d.digits / 10, d.exponent + 1⟩ else d

end SymbolicCalculus.Decimal
