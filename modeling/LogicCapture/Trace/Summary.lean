import LogicCapture.Number.Extremum
import LogicCapture.Number.FloatText
import LogicCapture.Number.Grouped
import LogicCapture.Trace.Rows

/-!
# Summaries of a trace

Two views of a finished trace: per track the number of its events, the time they span and the range
of its values, and the list of reconstructed bus transactions with their payload. Both are computed
from the frames of the trace, so they need numbers that fit their columns.
-/

namespace LogicCapture.Trace

/-! ## The tracks -/

structure TrackStats where
  events : Nat
  span : Option (Int × Int)
  range : Option (Float × Float)
  deriving Repr

structure TrackSummary where
  track : TrackRow
  stats : TrackStats
  deriving Repr

/-- A row of the list of transactions. -/
structure TransactionRow where
  ts : Int
  dur : Int
  track : Option String
  name : String
  address : Option String
  writeBytes : Option String
  readBytes : Option String
  deriving Repr, DecidableEq

/-- What the counter samples say about a track; nothing if it has none. -/
def counterStats (counters : List Counter) (id : Int) : Option TrackStats :=
  match counters.filter (·.track == id) with
  | [] => none
  | first :: rest => some {
      events := rest.length + 1
      span := some ((rest.map Counter.ts).foldl min first.ts,
        (rest.map Counter.ts).foldl max first.ts)
      range := some (leastFloat first.value (rest.map Counter.value),
        greatestFloat first.value (rest.map Counter.value)) }

/-- The end of an interval in the column of times, a signed 64-bit word. -/
def SliceRow.finish (row : SliceRow) : Int :=
  wrapWord64 (row.ts + row.dur)

/-- What the intervals say about a track; nothing if it has none. -/
def sliceStats (slices : List SliceRow) (id : Int) : Option TrackStats :=
  match slices.filter (·.track == id) with
  | [] => none
  | first :: rest => some {
      events := rest.length + 1
      span := some ((rest.map SliceRow.ts).foldl min first.ts,
        (rest.map SliceRow.finish).foldl max first.finish)
      range := none }

namespace Store

/-- Per track one row for its counter samples and one for its intervals; a track with neither has
one row without events. -/
def summary (s : Store) : Except Failure (List TrackSummary) := do
  let tracks ← s.trackFrame
  if tracks.isEmpty then return []
  let counters ← s.counterFrame
  let slices ← s.sliceFrame
  return tracks.flatMap fun track =>
    match (counterStats counters track.id).toList ++ (sliceStats slices track.id).toList with
    | [] => [{ track, stats := { events := 0, span := none, range := none } }]
    | stats => stats.map fun stats => { track, stats }

/-- The texts that the arguments of an interval give for a key, one for each argument with that key;
without one, no text. -/
def argTexts (args : List ArgRow) (key : String) : List (Option String) :=
  match args.filter (·.key == key) with
  | [] => [none]
  | found => found.map (·.value.text?)

/-- The intervals of a category with the payload from their arguments, in order of time. -/
def transactions (s : Store) (category : String) : Except Failure (List TransactionRow) := do
  let slices ← s.sliceFrame
  discard s.argFrame
  let tracks ← s.trackFrame
  let found := (slices.zip s.argRowsBySlice).filter (·.1.category == some category)
  let rows := found.flatMap fun (slice, args) =>
    (argTexts args "address").flatMap fun address =>
      (argTexts args "write_bytes").flatMap fun writeBytes =>
        (argTexts args "read_bytes").map fun readBytes =>
          { ts := slice.ts, dur := slice.dur,
            track := (tracks.find? fun track => (track.id : Int) == slice.track).map (·.name),
            name := slice.name, address, writeBytes, readBytes }
  return rows.mergeSort fun a b => a.ts ≤ b.ts

end Store

/-! ## The printed form -/

def TrackSummary.line (row : TrackSummary) : String :=
  "  [" ++ toString row.track.id ++ "] " ++ row.track.name ++ " (" ++ row.track.kind.label ++
    "): " ++ grouped row.stats.events ++ " events" ++
    (match row.stats.span with
      | some (first, last) => s!", {first} .. {last} ns"
      | none => "") ++
    (match row.stats.range with
      | some (least, greatest) =>
        ", value " ++ FloatStyle.summary.write least ++ " .. " ++ FloatStyle.summary.write greatest
      | none => "")

def TransactionRow.line (row : TransactionRow) : String :=
  "  " ++ alignRight 15 (toString row.ts) ++ " +" ++ alignLeft 10 (toString row.dur) ++ " " ++
    row.name

/-- The lines printed about a trace: its tracks, and its I2C transactions if there are any. -/
def Store.summaryLines (s : Store) : Except Failure (List String) := do
  let tracks ← s.summary
  if tracks.isEmpty then return ["", "=== Tracks ===", "No tracks were created"]
  let transactions ← s.transactions "i2c"
  let bus :=
    if transactions.isEmpty then []
    else ["", s!"=== I2C Transactions ({transactions.length}) ==="] ++
      transactions.map TransactionRow.line
  return ["", "=== Tracks ==="] ++ tracks.map TrackSummary.line ++ bus

end LogicCapture.Trace
