/-!
# Character sets

A set of characters as the ascending places where membership changes: a character belongs when an
odd number of those places lie at or before it. This is the form in which the large classes of
characters are kept. The places are counted by halving, so that a set is asked quickly however
often it changes.
-/

namespace LogicCapture.Text

/-- A set of characters given by the numbers at which membership flips, in ascending order. -/
structure CharSet where
  bounds : Array Nat
  deriving Repr, DecidableEq

/-- The number of bounds at or below a number. Those before `low` are known to be, and those from
`high` on are known not to be. -/
def countUpTo (bounds : Array Nat) (n low high : Nat) : Nat :=
  if low < high then
    let middle := (low + high) / 2
    if bounds.getD middle 0 ≤ n then countUpTo bounds n (middle + 1) high
    else countUpTo bounds n low middle
  else low
termination_by high - low

/-- A character is in the set when membership has flipped an odd number of times up to it. -/
def CharSet.contains (s : CharSet) (c : Char) : Bool :=
  countUpTo s.bounds c.toNat 0 s.bounds.size % 2 == 1

end LogicCapture.Text
