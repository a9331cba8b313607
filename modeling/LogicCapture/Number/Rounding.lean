/-!
# Rounding to whole numbers

The whole number below `mantissa * 2 ^ exponent`, the one nearest to it, a half going away from
zero, and the nearest multiple of a grid, a half going to the even neighbour. All are exact: no
intermediate result is rounded.
-/

namespace LogicCapture

/-- `mantissa * 2 ^ exponent`, cut downward to a whole number. -/
def wholeBelow (mantissa : Nat) (exponent : Int) : Nat :=
  match exponent with
  | .ofNat up => mantissa <<< up
  | .negSucc down => mantissa >>> (down + 1)

/-- The whole number nearest to `mantissa * 2 ^ exponent`; a half goes up, that is, away from
zero. -/
def nearestWhole (mantissa : Nat) (exponent : Int) : Nat :=
  match exponent with
  | .ofNat up => mantissa <<< up
  | .negSucc down => (mantissa + 1 <<< down) >>> (down + 1)

/-- The whole number nearest to `num / den`; a half goes to the even neighbour. -/
def nearestEven (num den : Nat) : Nat :=
  let below := num / den
  let twice := 2 * (num % den)
  if twice < den || (twice == den && below % 2 == 0) then below else below + 1

end LogicCapture
