import LogicCapture.Failure
import LogicCapture.Number.Word64
import LogicCapture.Trace.StringPool

/-!
# Trace store

The trace that an import builds: tracks, counter samples and intervals, with all their texts in one
pool. Everything is appended and nothing is changed afterwards. A track, an interval and an
argument are known by where they stand, so their numbers are positions and are not stored.
-/

namespace LogicCapture.Trace

/-! ## What a trace holds -/

inductive TrackKind where
  | digitalCounter
  | analogCounter
  | csvSlice
  deriving Repr, DecidableEq

namespace TrackKind

def label : TrackKind → String
  | digitalCounter => "digital_counter"
  | analogCounter => "analog_counter"
  | csvSlice => "csv_slice"

def ofLabel (text : String) : Except Failure TrackKind :=
  match [digitalCounter, analogCounter, csvSlice].find? (·.label == text) with
  | some kind => .ok kind
  | none => .error (.unknownTrackKind text)

end TrackKind

/-- A track. Kind and key together tell it from the others; `name` is a handle. -/
structure Track where
  kind : TrackKind
  key : String
  name : Nat
  deriving Repr, DecidableEq

/-- One sample of a counter track. Its track may be any number, also one without a track. -/
structure Counter where
  ts : Int
  value : Float
  track : Int
  deriving Repr

inductive ArgValue where
  | flag (value : Bool)
  | text (value : String)
  deriving Repr, DecidableEq

/-- An argument to be attached to an interval, with the handle of its key if that is known. -/
structure Arg where
  key : String
  value : ArgValue
  keyHandle : Option Nat := none
  deriving Repr, DecidableEq

/-- The value of an argument in the store; a text is a handle. -/
inductive StoredValue where
  | flag (value : Bool)
  | text (handle : Nat)
  deriving Repr, DecidableEq

structure StoredArg where
  key : Nat
  value : StoredValue
  deriving Repr, DecidableEq

/-- An interval in the store with its arguments. Category and name are handles. -/
structure Slice where
  ts : Int
  dur : Int
  track : Int
  category : Option Nat
  name : Nat
  args : List StoredArg
  deriving Repr, DecidableEq

/-- An interval to be stored. -/
structure Interval where
  ts : Int
  track : Int
  category : Option String
  name : String
  dur : Int
  args : List Arg := []
  deriving Repr, DecidableEq

/-- The trace built so far. -/
structure Store where
  strings : StringPool := .empty
  tracks : Array Track := #[]
  counters : Array Counter := #[]
  slices : Array Slice := #[]

/-- The text of a handle that has been given out. -/
def textAt (texts : Array String) (handle : Nat) : Except Failure String :=
  match texts[handle]? with
  | some text => .ok text
  | none => .error (if fitsWord64 handle then .indexOutOfRange else .indexTooLarge)

theorem textAt_eq_ok_iff {texts : Array String} {handle : Nat} {text : String} :
    textAt texts handle = .ok text ↔ texts[handle]? = some text := by
  unfold textAt
  cases texts[handle]? <;> simp

namespace Store

/-! ## Texts and tracks -/

def intern (s : Store) (text : String) : Nat × Store :=
  let (handle, strings) := s.strings.intern text
  (handle, { s with strings })

def textOf (s : Store) (handle : Nat) : Except Failure String :=
  textAt s.strings.texts handle

def textOf? (s : Store) : Option Nat → Except Failure (Option String)
  | none => .ok none
  | some handle => some <$> s.textOf handle

def findTrack? (s : Store) (kind : TrackKind) (key : String) : Option Nat :=
  s.tracks.findIdx? fun track => track.kind == kind && track.key == key

/-- The number of the track with this kind and key, which is added with the given name if it is not
there. -/
def internTrack (s : Store) (kind : TrackKind) (key name : String) : Nat × Store :=
  match s.findTrack? kind key with
  | some id => (id, s)
  | none =>
    let (name, s) := s.intern name
    (s.tracks.size, { s with tracks := s.tracks.push { kind, key, name } })

/-! ## Events -/

def addCounter (s : Store) (counter : Counter) : Store :=
  { s with counters := s.counters.push counter }

/-- The handles of an argument, its key before its value. -/
def internArg (strings : StringPool) (arg : Arg) : StoredArg × StringPool :=
  let (key, strings) :=
    match arg.keyHandle with
    | some handle => (handle, strings)
    | none => strings.intern arg.key
  match arg.value with
  | .flag value => ({ key, value := .flag value }, strings)
  | .text value =>
    let (handle, strings) := strings.intern value
    ({ key, value := .text handle }, strings)

def internArgs (strings : StringPool) : List Arg → List StoredArg × StringPool
  | [] => ([], strings)
  | arg :: args =>
    let (stored, strings) := internArg strings arg
    let (rest, strings) := internArgs strings args
    (stored :: rest, strings)

def internOption (strings : StringPool) : Option String → Option Nat × StringPool
  | none => (none, strings)
  | some text =>
    let (handle, strings) := strings.intern text
    (some handle, strings)

/-- Append one interval: its category, its name and its arguments enter the pool in that order. -/
def addInterval (s : Store) (interval : Interval) : Store :=
  let (category, strings) := internOption s.strings interval.category
  let (name, strings) := strings.intern interval.name
  let (args, strings) := internArgs strings interval.args
  let slice : Slice :=
    { ts := interval.ts, dur := interval.dur, track := interval.track, category, name, args }
  { s with strings, slices := s.slices.push slice }

/-! ## What each step leaves alone -/

@[simp] theorem tracks_intern (s : Store) (text : String) :
    (s.intern text).2.tracks = s.tracks := rfl

@[simp] theorem counters_intern (s : Store) (text : String) :
    (s.intern text).2.counters = s.counters := rfl

@[simp] theorem slices_intern (s : Store) (text : String) :
    (s.intern text).2.slices = s.slices := rfl

@[simp] theorem counters_internTrack (s : Store) (kind : TrackKind) (key name : String) :
    (s.internTrack kind key name).2.counters = s.counters := by
  unfold internTrack
  split <;> rfl

@[simp] theorem slices_internTrack (s : Store) (kind : TrackKind) (key name : String) :
    (s.internTrack kind key name).2.slices = s.slices := by
  unfold internTrack
  split <;> rfl

@[simp] theorem tracks_addCounter (s : Store) (counter : Counter) :
    (s.addCounter counter).tracks = s.tracks := rfl

@[simp] theorem slices_addCounter (s : Store) (counter : Counter) :
    (s.addCounter counter).slices = s.slices := rfl

@[simp] theorem tracks_addInterval (s : Store) (interval : Interval) :
    (s.addInterval interval).tracks = s.tracks := rfl

@[simp] theorem counters_addInterval (s : Store) (interval : Interval) :
    (s.addInterval interval).counters = s.counters := rfl

@[simp] theorem size_slices_addInterval (s : Store) (interval : Interval) :
    (s.addInterval interval).slices.size = s.slices.size + 1 := by
  simp [addInterval]

end Store

end LogicCapture.Trace
