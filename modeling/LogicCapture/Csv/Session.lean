import LogicCapture.Csv.Row

/-!
# Reading an export line by line

The first line that is not blank is the header; every further line that is not blank is a row and
becomes an interval on the track of its analyzer. A row that ends a bus transaction is followed by
an interval for the whole transaction. What has been done for a line is not undone when something
fails behind it.
-/

namespace LogicCapture.Csv

open Trace (Store)

/-- What has been read so far. The track of an analyzer is looked up in the store only once. -/
structure Session where
  config : Config := {}
  schema : Option Schema := none
  trackIds : Std.TreeMap String Nat := ∅
  bus : Bus.Reconstructor := {}
  store : Store := {}
  rows : Nat := 0
  transactions : Nat := 0

/-- A step of reading. When it fails it leaves what has been read up to then. -/
abbrev Step := EStateM Failure Session

namespace Session

/-- The schema, which is there once the header has been read. -/
def knownSchema (s : Session) : Except Failure Schema :=
  match s.schema with
  | some schema => .ok schema
  | none => .error .headerMissing

/-! ## Additions -/

def setSchema (s : Session) (schema : Schema) : Session :=
  let (schema, store) := schema.intern s.store
  { s with schema := some schema, store }

/-- The track of an analyzer, which is created if there is none. -/
def trackFor (s : Session) (analyzer : String) : Nat × Session :=
  match s.trackIds[analyzer]? with
  | some track => (track, s)
  | none =>
    let trackName := s.config.trackLead ++ analyzer
    let (track, store) := s.store.internTrack .csvSlice analyzer trackName
    (track, { s with store, trackIds := s.trackIds.insert analyzer track })

def intervalOf (event : Event) (args : List Trace.Arg) (track : Nat) : Trace.Interval :=
  { ts := event.ts, dur := event.dur, track, category := event.category, name := event.name, args }

def addRow (s : Session) (event : Event) (args : List Trace.Arg) (track : Nat) : Session :=
  { s with store := s.store.addInterval (intervalOf event args track), rows := s.rows + 1 }

def stepBus (s : Session) (row : Bus.Row) : Option Bus.Transaction × Session :=
  let (ended, bus) := s.bus.step row
  (ended, { s with bus })

def transactionInterval (category : String) (t : Bus.Transaction) (track : Nat) : Trace.Interval :=
  { ts := t.start, dur := t.duration, track, category := some category, name := t.name
    args := t.args }

def addTransaction (s : Session) (t : Bus.Transaction) (track : Nat) : Session :=
  { s with
    store := s.store.addInterval (transactionInterval s.bus.config.category t track)
    transactions := s.transactions + 1 }

/-! ## Lines -/

def stripReturn (line : String) : String :=
  match line.toList.getLast? with
  | some '\r' => String.ofList line.toList.dropLast
  | _ => line

def takeHeader (line : String) : Step Unit := do
  let schema ← MonadExcept.ofExcept (Schema.ofFields (fields line))
  modify (·.setSchema schema)

/-- Take in a row. Its track is there before its arguments are known. -/
def takeRow (schema : Schema) (line : String) : Step Unit := do
  let row := schema.pad (fields line)
  let event ← MonadExcept.ofExcept (Event.ofRow (← get).config schema row)
  let track ← modifyGet (·.trackFor event.analyzer)
  let args ← MonadExcept.ofExcept (schema.args row)
  modify (·.addRow event args track)
  match ← modifyGet (·.stepBus event.busRow) with
  | none => return
  | some t => modify (·.addTransaction t track)

def takeLine (line : String) : Step Unit := do
  let line := stripReturn line
  if Text.isBlank line then return
  match (← get).schema with
  | none => takeHeader line
  | some schema => takeRow schema line

/-- Take in a line as it has been decoded. One that has been refused fails. -/
def takeDecoded : Text.Decoded → Step Unit
  | .ok line => takeLine line
  | .error reason => throw (.undecodable reason)

def onLine (s : Session) (line : String) : Except Failure Session :=
  match takeLine line s with
  | .ok () s => .ok s
  | .error failure _ => .error failure

end Session

end LogicCapture.Csv
