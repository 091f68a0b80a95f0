import TextTemplate.Binary64.Basic
import TextTemplate.Decimal.Basic

/-!
# The shortest decimal of a binary64 number

Every decimal in an interval around a number rounds to that number; `shortest` is the decimal of
the interval with the fewest digits, and of those the nearest to the number.  A tie between two of
them goes to the larger.  All comparisons are exact: values are counted in *decimal units* of
`10 ^ -1076`, of which a quarter of a quantum is a whole number.

Decimals with few digits are the multiples of a high power of ten, so the search goes down the
powers and stops at the first with a multiple in the interval (`coarsest`).  The text of a number
is its shortest decimal in positional notation.
-/

namespace TextTemplate

namespace Binary64

attribute [local instance] natPow

/-- The decimal units in a quarter of a quantum. -/
def unitsPerQuarter : Nat := 5 ^ (1076 : Nat)

/-- The interval of magnitudes that round to a number, its ends included, and the number itself,
in decimal units. -/
structure RoundingInterval where
  low : Nat
  value : Nat
  high : Nat

namespace RoundingInterval

/-- Whether a multiple of `step` lies in the interval. -/
def meets (i : RoundingInterval) (step : Nat) : Bool :=
  i.low ≤ i.high / step * step

/-- The greatest `j ≤ bound` for which a multiple of `10 ^ j` lies in the interval, or zero. -/
def coarsest (i : RoundingInterval) : Nat → Nat
  | 0 => 0
  | j + 1 => if i.meets (10 ^ (j + 1)) then j + 1 else i.coarsest j

/-- Where the search for the coarsest power begins. -/
def bound (i : RoundingInterval) : Nat := 10 * (i.high.log2 / 33 + 1)

/-- How often `step` goes into the multiple of it that lies in the interval and is nearest to the
value, the larger of two equally near ones. -/
def nearest (i : RoundingInterval) (step : Nat) : Nat :=
  let below := i.value / step
  let above := below + 1
  if below * step < i.low then above
  else if i.high < above * step then below
  else if i.value - below * step < above * step - i.value then below
  else above

/-- The bound is high enough: `10 ^ bound` is above the interval. -/
theorem high_lt_pow_bound (i : RoundingInterval) : i.high < 10 ^ i.bound :=
  calc
    i.high < 2 ^ (i.high.log2 + 1) := Nat.lt_log2_self
    _ ≤ 2 ^ (33 * (i.high.log2 / 33 + 1)) := Nat.pow_le_pow_right (by decide) (by omega)
    _ = (2 ^ 33) ^ (i.high.log2 / 33 + 1) := Nat.pow_mul ..
    _ ≤ (10 ^ 10) ^ (i.high.log2 / 33 + 1) := Nat.pow_le_pow_left (by decide) _
    _ = 10 ^ i.bound := (Nat.pow_mul ..).symm

end RoundingInterval

namespace Finite

/-- The neighbours of a number are `2 ^ scale` quanta away, the lower one half as far at the foot of
a scale.  The ends of the interval are half way to the neighbours; they round to even significands
only. -/
def roundingInterval (x : Finite) : RoundingInterval :=
  let unit := 2 ^ x.scale * unitsPerQuarter
  let below := if x.significand = 2 ^ (52 : Nat) ∧ x.scale ≠ 0 then 1 else 2
  let margin := if x.significand % 2 = 0 then 0 else 1
  { low := (4 * x.significand - below) * unit + margin
    value := 4 * x.significand * unit
    high := (4 * x.significand + 2) * unit - margin }

/-- The decimal with the fewest digits that rounds to the magnitude of a non-zero number. -/
def shortest (x : Finite) : Decimal :=
  let i := x.roundingInterval
  let j := i.coarsest i.bound
  ⟨i.nearest (10 ^ j), j - 1076⟩

/-- The default text of a finite number: zero has no sign. -/
def text (x : Finite) : List Char :=
  if x.significand = 0 then ['0']
  else
    let magnitude := x.shortest.positional
    if x.negative then '-' :: magnitude else magnitude

end Finite

/-- The default text of a number. -/
def text : Binary64 → List Char
  | .nan => ['N', 'a', 'N']
  | .infinity negative =>
    (if negative then ['-'] else []) ++ ['I', 'n', 'f', 'i', 'n', 'i', 't', 'y']
  | .finite x => x.text

end Binary64

end TextTemplate
