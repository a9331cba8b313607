import Std.Data.TreeMap
import LogicCapture.Trace.Rows

/-!
# Trace tables

The trace as it is kept in memory: the texts with an index of their handles, the tracks with an
index of their numbers by kind and key, and a table each of samples, intervals and arguments. The
row of a track or an interval holds its number; that of an argument holds the number of its
interval, the type of its value and a column for either type. Nothing but the calls themselves
keeps numbers, indexes and columns in step. A `Store` is the same trace without what the places of
its rows tell.
-/

namespace LogicCapture.Trace

/-! ## Rows as they are kept -/

/-- A track; its name is a handle. -/
structure TrackRecord where
  id : Nat
  kind : TrackKind
  key : String
  name : Nat
  deriving Repr, DecidableEq

/-- An interval; category and name are handles. -/
structure SliceRecord where
  id : Nat
  ts : Int
  dur : Int
  track : Int
  category : Option Nat
  name : Nat
  deriving Repr, DecidableEq

/-- An argument of the interval with this number; key and text are handles. -/
structure ArgRecord where
  slice : Nat
  key : Nat
  valueType : String
  flag : Option Bool
  text : Option Nat
  deriving Repr, DecidableEq

/-- An argument with key and text resolved. -/
structure ArgColumns where
  slice : Nat
  key : String
  valueType : String
  flag : Option Bool
  text : Option String
  deriving Repr, DecidableEq

abbrev compareTracks : TrackKind × String → TrackKind × String → Ordering :=
  compareLex (compareOn fun track => track.1.label) (compareOn fun track => track.2)

/-- The trace built so far, with the indexes of its texts and of its tracks. -/
structure Tables where
  strings : Array String := #[]
  stringIds : Std.TreeMap String Nat := ∅
  tracks : Array TrackRecord := #[]
  trackIds : Std.TreeMap (TrackKind × String) Nat compareTracks := ∅
  counters : Array Counter := #[]
  slices : Array SliceRecord := #[]
  args : Array ArgRecord := #[]

namespace Tables

/-! ## Calls -/

def intern (t : Tables) (text : String) : Nat × Tables :=
  match t.stringIds[text]? with
  | some handle => (handle, t)
  | none =>
    let handle := t.strings.size
    (handle, { t with
      strings := t.strings.push text, stringIds := t.stringIds.insert text handle })

def internOption (t : Tables) : Option String → Option Nat × Tables
  | none => (none, t)
  | some text =>
    let (handle, t) := t.intern text
    (some handle, t)

/-- The number of the track with this kind and key, which is added with the given name if it is not
there. -/
def internTrack (t : Tables) (kind : TrackKind) (key name : String) : Nat × Tables :=
  match t.trackIds[(kind, key)]? with
  | some id => (id, t)
  | none =>
    let id := t.tracks.size
    let (name, t) := t.intern name
    (id, { t with
      tracks := t.tracks.push { id, kind, key, name }
      trackIds := t.trackIds.insert (kind, key) id })

def addCounter (t : Tables) (counter : Counter) : Tables :=
  { t with counters := t.counters.push counter }

/-- Append one argument of an interval. Its key enters the pool before its value, unless it comes
with a handle. -/
def addArg (slice : Nat) (t : Tables) (arg : Arg) : Tables :=
  let (key, t) :=
    match arg.keyHandle with
    | some handle => (handle, t)
    | none => t.intern arg.key
  match arg.value with
  | .flag value =>
    let record : ArgRecord :=
      { slice, key, valueType := "bool", flag := some value, text := none }
    { t with args := t.args.push record }
  | .text value =>
    let (handle, t) := t.intern value
    let record : ArgRecord :=
      { slice, key, valueType := "string", flag := none, text := some handle }
    { t with args := t.args.push record }

/-- Append one interval, and behind it its arguments one by one. -/
def addInterval (t : Tables) (interval : Interval) : Tables :=
  let id := t.slices.size
  let (category, t) := t.internOption interval.category
  let (name, t) := t.intern interval.name
  let record : SliceRecord :=
    { id, ts := interval.ts, dur := interval.dur, track := interval.track, category, name }
  interval.args.foldl (addArg id) { t with slices := t.slices.push record }

/-! ## Resolving handles -/

def textOf (t : Tables) (handle : Nat) : Except Failure String :=
  textAt t.strings handle

def textOf? (t : Tables) : Option Nat → Except Failure (Option String)
  | none => .ok none
  | some handle => some <$> t.textOf handle

def trackRows (t : Tables) : Except Failure (List TrackRow) :=
  t.tracks.toList.mapM fun { id, kind, key, name } => do
    return { id, kind, key, name := ← t.textOf name }

def sliceRows (t : Tables) : Except Failure (List SliceRow) :=
  t.slices.toList.mapM fun { id, ts, dur, track, category, name } => do
    let category ← t.textOf? category
    return { id, ts, dur, track, category, name := ← t.textOf name }

def argRows (t : Tables) : Except Failure (List ArgColumns) :=
  t.args.toList.mapM fun { slice, key, valueType, flag, text } => do
    let key ← t.textOf key
    return { slice, key, valueType, flag, text := ← t.textOf? text }

/-- The value in the column that the type of the argument names. -/
def valueOf (t : Tables) (arg : ArgRecord) : Except Failure (Option ArgValue) :=
  if arg.valueType = "bool" then .ok (arg.flag.map .flag)
  else Option.map .text <$> t.textOf? arg.text

/-- The arguments of an interval by key. -/
def argsOf (t : Tables) (slice : Int) : Except Failure (List (String × Option ArgValue)) :=
  (t.args.toList.filter fun arg => arg.slice == slice).foldlM (fun args arg => do
    let key ← t.textOf arg.key
    return Store.putArg args key (← t.valueOf arg)) []

end Tables

end LogicCapture.Trace
