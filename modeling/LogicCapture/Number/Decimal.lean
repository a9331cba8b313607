import LogicCapture.Number.Rounding

/-!
# Decimal digits of a binary value

Two ways to choose decimal digits for the value `mantissa * 2 ^ exponent` of a double. `shortest`
takes as few digits as still tell the value from every other double, and among those the nearest.
`significant` takes a fixed number of digits. Both compare points of a decimal grid with the value
in whole numbers, by scaling the two sides to a common unit.
-/

namespace LogicCapture

/-- The number `digits * 10 ^ exponent`. -/
structure Decimal where
  digits : Nat
  exponent : Int
  deriving Repr, DecidableEq

namespace Decimal

/-- The units in which a decimal grid with spacing `10 ^ place` and the multiples of
`2 ^ exponent` are both whole: how many units one grid step and one binary step take. -/
def commonUnit (place exponent : Int) : Nat × Nat :=
  (Nat.pow 10 place.toNat <<< (-exponent).toNat, Nat.pow 10 (-place).toNat <<< exponent.toNat)

/-- A decimal place above the leading digit of `mantissa * 2 ^ exponent`. -/
def placeAbove (mantissa : Nat) (exponent : Int) : Int :=
  ((mantissa.log2 : Int) + exponent + 1) * 30103 / 100000 + 1

/-- The point of the grid with spacing `10 ^ place` that lies nearest to `mantissa * 2 ^ exponent`
and is still read as it. The reals read as this double lie within half a step to the next double
on either side, ends included when the mantissa is even; below a power of two the next double is
half as far. -/
def readablePoint? (mantissa : Nat) (exponent place : Int) : Option Nat :=
  let (gridStep, binaryStep) := commonUnit place (exponent - 2)
  let value := 4 * mantissa * binaryStep
  let low := value - (if mantissa = 0x10000000000000 && -1074 < exponent then 1 else 2) * binaryStep
  let high := value + 2 * binaryStep
  let reads := fun point =>
    if mantissa % 2 = 0 then low ≤ point * gridStep && point * gridStep ≤ high
    else low < point * gridStep && point * gridStep < high
  let below := value / gridStep
  if reads below && reads (below + 1) then some (nearestEven value gridStep)
  else if reads below then some below
  else if reads (below + 1) then some (below + 1)
  else none

/-- The first readable point on ever finer grids, `fuel` refinements at most. -/
def refine (mantissa : Nat) (exponent place : Int) : Nat → Decimal
  | 0 => ⟨0, place⟩
  | fuel + 1 =>
    match readablePoint? mantissa exponent place with
    | some point => ⟨point, place⟩
    | none => refine mantissa exponent (place - 1) fuel

/-- The fewest digits that are read back as `mantissa * 2 ^ exponent`, and among those the nearest
to it. Seventeen significant digits always suffice. -/
def shortest (mantissa : Nat) (exponent : Int) : Decimal :=
  if mantissa = 0 then ⟨0, 0⟩ else refine mantissa exponent (placeAbove mantissa exponent) 20

def stripZeros (digits : Nat) (exponent : Int) : Decimal :=
  if _h : digits ≠ 0 ∧ digits % 10 = 0 then stripZeros (digits / 10) (exponent + 1)
  else ⟨digits, exponent⟩
termination_by digits
decreasing_by omega

/-- The value on the coarsest grid, from `place` on, on which it has `count` digits. -/
def roundAt (mantissa : Nat) (exponent : Int) (count : Nat) (place : Int) : Nat → Decimal
  | 0 => ⟨0, place⟩
  | fuel + 1 =>
    let (gridStep, binaryStep) := commonUnit place exponent
    if Nat.pow 10 (count - 1) ≤ mantissa * binaryStep / gridStep then
      stripZeros (nearestEven (mantissa * binaryStep) gridStep) place
    else roundAt mantissa exponent count (place - 1) fuel

/-- The value rounded to `count` significant digits, a half to even, without zeros at the end. -/
def significant (count mantissa : Nat) (exponent : Int) : Decimal :=
  if mantissa = 0 then ⟨0, 0⟩
  else roundAt mantissa exponent count (placeAbove mantissa exponent) (count + 3)

end Decimal

end LogicCapture
