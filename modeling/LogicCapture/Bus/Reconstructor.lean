import LogicCapture.Bus.Transaction
import LogicCapture.Text.Lowercase

/-!
# Reconstructing bus transactions

An I2C analyzer exports the parts of a transaction as rows of their own: a start, an address, data,
a stop. The reconstructor puts them together again. Every analyzer, known by the exact spelling of
its name, has a state of its own, so their rows may be interleaved. Rows out of turn are ignored.
-/

namespace LogicCapture.Bus

/-- Which rows belong to transactions and what the parts are called. Row types are given in small
letters. -/
structure Config where
  analyzerName : String := "i2c"
  category : String := "i2c"
  fallbackName : String := "i2c"
  startType : String := "start"
  addressType : String := "address"
  dataType : String := "data"
  stopType : String := "stop"
  deriving Repr, DecidableEq

/-- One analyzer between a start and a stop. What a finished transaction left behind stays until
the next start. `written` and `received` run backwards, the newest byte first. -/
structure State where
  isOpen : Bool := false
  start : Int := 0
  address : String := ""
  reading : Bool := false
  written : List String := []
  received : List String := []
  deriving Repr, DecidableEq

/-- What a row says about a transaction. Its type is in small letters. -/
structure Row where
  analyzer : String
  rowType : String
  ts : Int
  dur : Int := 0
  address : String := ""
  read : String := ""
  data : String := ""
  deriving Repr, DecidableEq

namespace State

def writeBytes (state : State) : List String :=
  state.written.reverse

def readBytes (state : State) : List String :=
  state.received.reverse

/-- A start row: a new transaction, unless one is under way. -/
def onStart (state : State) (row : Row) : State :=
  if state.isOpen then state else { isOpen := true, start := row.ts }

/-- An address row: the address, if given, and the direction, if given. -/
def onAddress (state : State) (row : Row) : State :=
  let direction := Text.lowercase row.read
  { state with
    address := if row.address.isEmpty then state.address else row.address
    reading :=
      if direction == "true" then true
      else if direction == "false" then false
      else state.reading }

/-- A data row: one byte in the present direction, if given. -/
def onData (state : State) (row : Row) : State :=
  if row.data.isEmpty then state
  else if state.reading then { state with received := row.data :: state.received }
  else { state with written := row.data :: state.written }

theorem writeBytes_onData (state : State) (row : Row) :
    (state.onData row).writeBytes =
      if row.data.isEmpty || state.reading then state.writeBytes
      else state.writeBytes ++ [row.data] := by
  unfold onData writeBytes
  split
  · simp [*]
  · split <;> simp_all

theorem readBytes_onData (state : State) (row : Row) :
    (state.onData row).readBytes =
      if row.data.isEmpty || !state.reading then state.readBytes
      else state.readBytes ++ [row.data] := by
  unfold onData readBytes
  split
  · simp [*]
  · split <;> simp_all

/-- The transaction that a stop row ends. One that would end before it began takes no time. -/
def transaction (state : State) (fallbackName : String) (row : Row) : Transaction :=
  { start := state.start
    duration := max 0 (row.ts + row.dur - state.start)
    address := state.address
    writeBytes := state.writeBytes
    readBytes := state.readBytes
    fallbackName }

/-- One row of this analyzer, and the transaction it ends, if it ends one. -/
def step (config : Config) (state : State) (row : Row) : Option Transaction × State :=
  if row.rowType == config.startType then (none, state.onStart row)
  else if !state.isOpen then (none, state)
  else if row.rowType == config.addressType then (none, state.onAddress row)
  else if row.rowType == config.dataType then (none, state.onData row)
  else if row.rowType == config.stopType then
    (some (state.transaction config.fallbackName row), { state with isOpen := false })
  else (none, state)

end State

/-- The analyzers seen so far, in the order of their first row, with their states. -/
structure Reconstructor where
  config : Config := {}
  states : List (String × State) := []
  deriving Repr, DecidableEq

namespace Reconstructor

def isBusAnalyzer (config : Config) (analyzer : String) : Bool :=
  Text.lowercase analyzer == Text.lowercase config.analyzerName

def stateOf (r : Reconstructor) (analyzer : String) : State :=
  (r.states.lookup analyzer).getD {}

/-- Put a state in the place of an analyzer, at the end if it has none. -/
def setState (states : List (String × State)) (analyzer : String) (state : State) :
    List (String × State) :=
  match states with
  | [] => [(analyzer, state)]
  | (name, old) :: rest =>
    if name == analyzer then (name, state) :: rest
    else (name, old) :: setState rest analyzer state

/-- Setting the state of one analyzer leaves those of the others. -/
theorem lookup_setState (states : List (String × State)) (analyzer other : String)
    (state : State) :
    (setState states analyzer state).lookup other =
      if other = analyzer then some state else states.lookup other := by
  induction states with
  | nil =>
    by_cases h : other = analyzer
    · simp [setState, h]
    · have hne : (other == analyzer) = false := by simpa using h
      simp [setState, List.lookup_cons, h, hne]
  | cons entry rest ih =>
    obtain ⟨name, old⟩ := entry
    by_cases hname : name = analyzer
    · subst hname
      by_cases h : other = name
      · simp [setState, h]
      · have hne : (other == name) = false := by simpa using h
        simp [setState, List.lookup_cons, h, hne]
    · have hskip : setState ((name, old) :: rest) analyzer state
          = (name, old) :: setState rest analyzer state := by simp [setState, hname]
      rw [hskip]
      by_cases h : other = name
      · subst h
        simp [hname]
      · have hne : (other == name) = false := by simpa using h
        simp [List.lookup_cons, hne, ih]

def reset (r : Reconstructor) : Reconstructor :=
  { r with states := [] }

/-- One row of any analyzer, and the transaction it ends, if it ends one. -/
def step (r : Reconstructor) (row : Row) : Option Transaction × Reconstructor :=
  if isBusAnalyzer r.config row.analyzer then
    let (ended, state) := (r.stateOf row.analyzer).step r.config row
    (ended, { r with states := setState r.states row.analyzer state })
  else (none, r)

def openAnalyzers (r : Reconstructor) : List String :=
  (r.states.filter (·.2.isOpen)).map (·.1)

end Reconstructor

end LogicCapture.Bus
