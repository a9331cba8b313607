/-!
# The least and the greatest of a list of doubles

The two zeros are equal and yet printed apart, so where a list holds both, the order of the
comparisons tells which of them is its least or greatest value. The comparisons run in lanes:
sixteen values at a time while there are sixteen, then four at a time, and then one by one.
-/

namespace LogicCapture

/-! ## Lanes -/

structure Lanes (α : Type) where
  first : α
  second : α
  third : α
  fourth : α
  deriving Repr

namespace Lanes

def fill {α : Type} (x : α) : Lanes α :=
  ⟨x, x, x, x⟩

def zipWith {α β γ : Type} (f : α → β → γ) (p : Lanes α) (q : Lanes β) : Lanes γ :=
  ⟨f p.first q.first, f p.second q.second, f p.third q.third, f p.fourth q.fourth⟩

/-- A list cut into rows of four, added to the rows already cut, the last of these in front; and the
fewer than four things left at the end. -/
def cutOnto {α : Type} (rows : List (Lanes α)) : List α → List (Lanes α) × List α
  | a :: b :: c :: d :: rest => cutOnto (⟨a, b, c, d⟩ :: rows) rest
  | rest => (rows.reverse, rest)

/-- A list cut into rows of four, and the fewer than four things left at the end. -/
def cut {α : Type} (xs : List α) : List (Lanes α) × List α :=
  cutOnto [] xs

end Lanes

/-! ## The extreme value -/

/-- Of two values the one that comes before the other; of equal ones the second, and a value that is
not a number only beside another such. -/
def extremeOfTwo (before : Float → Float → Bool) (x y : Float) : Float :=
  if before x y || y.isNaN then x else y

/-- Of the values in four lanes the one that comes before the others; of equal ones that of the
earliest lane. -/
def extremeOfLanes (before : Float → Float → Bool) (row : Lanes Float) : Float :=
  [row.second, row.third, row.fourth].foldl (fun x y => extremeOfTwo before y x) row.first

/-- Of a value and those that follow it the one that comes before the others. Every lane starts from
the value that the comparisons so far have left. -/
def extreme (before : Float → Float → Bool) (x : Float) (xs : List Float) : Float :=
  let pick := extremeOfTwo before
  let (rows, singles) := Lanes.cut xs
  let (blocks, rows) := Lanes.cut rows
  let block := blocks.foldl (Lanes.zipWith (Lanes.zipWith pick)) (Lanes.fill (Lanes.fill x))
  let row := [block.second, block.third, block.fourth].foldl (Lanes.zipWith pick) block.first
  let row := rows.foldl (Lanes.zipWith pick) (Lanes.fill (extremeOfLanes before row))
  singles.foldl pick (extremeOfLanes before row)

/-- The least of the first value and those that follow, values that are not numbers left out while
there is a number. -/
def leastFloat (x : Float) (xs : List Float) : Float :=
  extreme (fun a b => a < b) x xs

/-- The greatest of the first value and those that follow, values that are not numbers left out
while there is a number. -/
def greatestFloat (x : Float) (xs : List Float) : Float :=
  extreme (fun a b => b < a) x xs

end LogicCapture
