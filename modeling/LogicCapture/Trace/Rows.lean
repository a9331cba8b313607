import LogicCapture.Number.Word64
import LogicCapture.Trace.Store

/-!
# Table rows

The trace as four tables with all handles resolved. The key of an argument is a handle that came
with the argument, so it may be one that the pool never gave out; then there is no table of
arguments. A frame is a table whose whole numbers all fit their 64-bit columns; a single number
that does not fit leaves no frame at all.
-/

namespace LogicCapture.Trace

structure TrackRow where
  id : Nat
  kind : TrackKind
  key : String
  name : String
  deriving Repr, DecidableEq

/-- A row of the table of intervals. -/
structure SliceRow where
  id : Nat
  ts : Int
  dur : Int
  track : Int
  category : Option String
  name : String
  deriving Repr, DecidableEq

structure ArgRow where
  slice : Nat
  key : String
  value : ArgValue
  deriving Repr, DecidableEq

def ArgValue.flag? : ArgValue → Option Bool
  | .flag value => some value
  | .text _ => none

def ArgValue.text? : ArgValue → Option String
  | .flag _ => none
  | .text value => some value

def ArgValue.typeLabel : ArgValue → String
  | .flag _ => "bool"
  | .text _ => "string"

namespace Store

/-! ## Resolving handles -/

/-- The text of a handle that the store itself took from its pool, which always has one. -/
def resolve (s : Store) (handle : Nat) : String :=
  (s.strings.text? handle).getD ""

def resolveArg (s : Store) (arg : StoredArg) : String × ArgValue :=
  (s.resolve arg.key,
    match arg.value with
    | .flag value => .flag value
    | .text handle => .text (s.resolve handle))

def trackRows (s : Store) : List TrackRow :=
  s.tracks.toList.zipIdx.map fun (track, id) =>
    { id, kind := track.kind, key := track.key, name := s.resolve track.name }

def sliceRows (s : Store) : List SliceRow :=
  s.slices.toList.zipIdx.map fun (slice, id) =>
    { id, ts := slice.ts, dur := slice.dur, track := slice.track,
      category := slice.category.map s.resolve, name := s.resolve slice.name }

def argRowsOf (s : Store) (id : Nat) (slice : Slice) : List ArgRow :=
  slice.args.map fun arg =>
    { slice := id, key := (s.resolveArg arg).1, value := (s.resolveArg arg).2 }

def argRowsBySlice (s : Store) : List (List ArgRow) :=
  s.slices.toList.zipIdx.map fun (slice, id) => s.argRowsOf id slice

def argRows (s : Store) : List ArgRow :=
  s.argRowsBySlice.flatten

/-- The keys of these arguments have been given out, or the failure of the first that has not. -/
def checkKeys (s : Store) (args : List StoredArg) : Except Failure Unit :=
  args.forM fun arg => discard (s.textOf arg.key)

/-- The table of arguments, if all keys have been given out. -/
def knownArgRows (s : Store) : Except Failure (List ArgRow) := do
  s.slices.toList.forM fun slice => s.checkKeys slice.args
  return s.argRows

/-! ## Arguments by key -/

/-- Put a value under a key. A key keeps its first place, and its last value counts. -/
def putArg {α : Type} (args : List (String × α)) (key : String) (value : α) : List (String × α) :=
  if args.any (·.1 == key) then
    args.map fun arg => if arg.1 == key then (key, value) else arg
  else args ++ [(key, value)]

/-! ## Frames -/

/-- The rows, if all the numbers in them fit their columns. The first one that does not fit, row by
row, decides how it fails: a number beyond 128 bits is no number for any column. -/
def frameOf {α : Type} (numbers : α → List Int) (rows : List α) : Except Failure (List α) :=
  match (rows.flatMap numbers).find? fun n => !fitsWord64 n with
  | none => .ok rows
  | some n => .error (if fitsWord128 n then .wordOverflow else .numberTooLarge n)

def trackFrame (s : Store) : Except Failure (List TrackRow) :=
  frameOf (fun row => [row.id]) s.trackRows

def counterFrame (s : Store) : Except Failure (List Counter) :=
  frameOf (fun row => [row.ts, row.track]) s.counters.toList

def sliceFrame (s : Store) : Except Failure (List SliceRow) :=
  frameOf (fun row => [row.id, row.ts, row.dur, row.track]) s.sliceRows

def argFrame (s : Store) : Except Failure (List ArgRow) := do
  frameOf (fun row => [row.slice]) (← s.knownArgRows)

end Store

end LogicCapture.Trace
