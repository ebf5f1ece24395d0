import SymbolicCalculus.Binary64.Basic
import SymbolicCalculus.Decimal.Shortest

/-!
# The text of a double

A double is written as the shortest decimal that reads back as it, always with a positional point
and never with an exponent; a whole number has no point. A zero keeps its sign.
-/

namespace SymbolicCalculus.Binary64

/-- The reals that round to the magnitude of a finite double other than zero. The cell reaches half
way to both neighbours; the lower one is half as far away where the exponent changes. The ends round
to the double with the even significand. -/
def cell (x : Binary64) : Decimal.Cell :=
  let m := x.significand
  let (up, down) := (1 <<< x.scale.toNat, 1 <<< (-x.scale).toNat)
  let step := if x.fractionField = 0 && 1 < x.exponentField then 1 else 2
  ⟨(4 * m - step) * up, 4 * m * up, (4 * m + 2) * up, 4 * down, m % 2 == 0⟩

/-- The digits of the magnitude. Seventeen are always enough. -/
def magnitudeText (x : Binary64) : List Char :=
  if x.significand = 0 then ['0']
  else
    match x.cell.shortest? 17 with
    | some d => (d.stripped 17).positional
    | none => []

/-- The double as it is written. -/
def text (x : Binary64) : List Char :=
  if x.isNaN then ['N', 'a', 'N']
  else
    let digits := if x.isFinite then x.magnitudeText else ['i', 'n', 'f']
    if x.isNegative then '-' :: digits else digits

instance : Numeral Binary64 where
  ofDecimal := ofDecimal
  text := text
  isNegative := isNegative

end SymbolicCalculus.Binary64
