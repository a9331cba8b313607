import Mathlib
import LogicCapture.Csv.Reader
import LogicCapture.Proofs.Events

/-!
# A line is read before it has effects

While a line is taken in, its header or row is read, texts enter the store, a track may be created
and remembered, and the bus takes a step. All of this amounts to reading the line first and adding
what it says afterwards (`takeLine_eq`): by the time a row has its track, nothing that is left to do
can fail, since a row that is filled up has a cell for every column. So a line that fails leaves
everything as it was (`takeLine_error`).
-/

namespace LogicCapture.Csv

open Trace (Arg)

/-! ## What a row says -/

namespace Event

theorem ofRow_congr (config : Config) {schema other : Schema} {row row' : List String}
    (h : ∀ role, schema.value row role = other.value row' role) :
    ofRow config schema row = ofRow config other row' := by
  simp only [ofRow, Schema.eventName, h]

/-- What a row says if it happens at this time. -/
def timed (config : Config) (schema : Schema) (row : List String) (ts dur : Int) : Event :=
  let analyzer := orDefault (schema.value row .name) config.defaultAnalyzer
  let rowType := orDefault (schema.value row .type) config.defaultType
  let smallType := Text.lowercase rowType
  { analyzer, ts, dur
    category := if categoryTypes.contains smallType then some smallType else none
    name := schema.eventName row rowType
    busRow := {
      analyzer, ts, dur
      rowType := smallType
      address := schema.value row .address
      read := schema.value row .read
      data := schema.value row .data } }

/-- A row that can be read has times that can be converted, and nothing else in it can fail. -/
theorem ofRow_eq_ok {config : Config} {schema : Schema} {row : List String} {event : Event}
    (h : ofRow config schema row = .ok event) :
    ∃ start duration ts dur,
      seconds (schema.value row .startTime) Role.startTime.label true = .ok start
        ∧ seconds (schema.value row .duration) Role.duration.label false = .ok duration
        ∧ Time.ofSeconds start = .ok ts ∧ Time.ofSeconds duration = .ok dur
        ∧ event = timed config schema row ts dur := by
  unfold ofRow at h
  dsimp only [bind, Except.bind] at h
  split at h
  · cases h
  · next start hstart =>
    split at h
    · cases h
    · next duration hduration =>
      split at h
      · cases h
      · next ts hts =>
        split at h
        · cases h
        · next dur hdur =>
          refine ⟨start, duration, ts, dur, hstart, hduration, hts, hdur, ?_⟩
          unfold timed
          exact (Except.ok.inj h).symm

end Event

/-! ## What a line says -/

/-- A line as it has been read, before it has any effect. -/
inductive Entry where
  | blank
  | header (schema : Schema)
  | row (event : Event) (args : List Arg)

/-- What a row below this header says. -/
def Entry.ofCells (config : Config) (schema : Schema) (cells : List String) :
    Except Failure Entry := do
  let event ← Event.ofRow config schema (schema.pad cells)
  let args ← schema.args (schema.pad cells)
  return .row event args

theorem lt_length_pad {schema : Schema} {column : String} {index : Nat}
    (h : (column, index) ∈ schema.extraColumns) (cells : List String) :
    index < (schema.pad cells).length := by
  have hindex : index < schema.columns.length := (List.getElem?_eq_some_iff.mp
    (List.mem_zipIdx_iff_getElem?.mp (List.mem_filter.mp h).1)).1
  rw [Schema.pad, List.length_append, List.length_replicate]
  omega

theorem args_pad (schema : Schema) (cells : List String) :
    schema.args (schema.pad cells) = .ok (schema.extraColumns.filterMap fun (column, index) =>
      schema.arg? index column ((schema.pad cells)[index]?.getD "")) := by
  unfold Schema.args
  refine (congrArg (fun found => (do return (← found).filterMap id : Except Failure (List Arg)))
    (mapM_eq_ok_map (k := fun (column, index) =>
      schema.arg? index column ((schema.pad cells)[index]?.getD "")) ?_)).trans ?_
  · rintro ⟨column, index⟩ hmem
    dsimp only
    rw [List.getElem?_toArray, List.getElem?_eq_getElem (lt_length_pad hmem cells)]
    rfl
  · change Except.ok (List.filterMap id (List.map _ schema.extraColumns)) = _
    rw [List.filterMap_map, Function.id_comp]

namespace Session

/-- Read a line as a session has to, which depends on whether there is a header. -/
def read (s : Session) (line : String) : Except Failure Entry :=
  let line := stripReturn line
  if Text.isBlank line then .ok .blank
  else
    match s.schema with
    | none => .header <$> Schema.ofFields (fields line)
    | some schema => Entry.ofCells s.config schema (fields line)

/-- The session with a row, and with the transaction that the row ends, if it ends one. -/
def onRow (s : Session) (event : Event) (args : List Arg) : Session :=
  let (track, s) := s.trackFor event.analyzer
  match (s.addRow event args track).stepBus event.busRow with
  | (none, s) => s
  | (some t, s) => s.addTransaction t track

def add (s : Session) : Entry → Session
  | .blank => s
  | .header schema => s.setSchema schema
  | .row event args => s.onRow event args

/-! ## Steps -/

section Steps

variable {α β : Type} {step : Step α} {next : α → Step β} {s s' : Session}

theorem ofExcept_of_ok {result : Except Failure α} {a : α} (h : result = .ok a) (s : Session) :
    (ofExcept result : Step α) s = .ok a s := by
  subst h
  rfl

theorem ofExcept_of_error {result : Except Failure α} {failure : Failure}
    (h : result = .error failure) (s : Session) :
    (ofExcept result : Step α) s = .error failure s := by
  subst h
  rfl

theorem modifyGet_eq_ok (change : Session → α × Session) (s : Session) :
    (modifyGet change : Step α) s = .ok (change s).1 (change s).2 := rfl

theorem modify_eq_ok (change : Session → Session) (s : Session) :
    (modify change : Step PUnit) s = .ok () (change s) := rfl

theorem get_eq_ok (s : Session) : (get : Step Session) s = .ok s s := rfl

end Steps

/-! ## Taking in a line -/

/-- Of the cells of a row only the event can fail. -/
theorem ofCells_eq (config : Config) (schema : Schema) (cells : List String) :
    ∃ args, schema.args (schema.pad cells) = .ok args
      ∧ Entry.ofCells config schema cells
        = (Event.ofRow config schema (schema.pad cells)).map (Entry.row · args) := by
  refine ⟨_, args_pad schema cells, ?_⟩
  unfold Entry.ofCells
  rw [args_pad]
  cases Event.ofRow config schema (schema.pad cells) <;> rfl

/-- A row that can be read is added: behind its track nothing is left that could fail. -/
theorem takeRow_of_ok {s : Session} {schema : Schema} {line : String} {event : Event}
    {args : List Arg} (hevent : Event.ofRow s.config schema (schema.pad (fields line)) = .ok event)
    (hargs : schema.args (schema.pad (fields line)) = .ok args) :
    takeRow schema line s = .ok () (s.onRow event args) := by
  unfold takeRow onRow
  rw [bind_of_ok (get_eq_ok s), bind_of_ok (ofExcept_of_ok hevent s),
    bind_of_ok (modifyGet_eq_ok _ s)]
  dsimp only
  generalize s.trackFor event.analyzer = tracked
  obtain ⟨track, s₁⟩ := tracked
  rw [bind_of_ok (ofExcept_of_ok hargs s₁), bind_of_ok (modify_eq_ok _ s₁),
    bind_of_ok (modifyGet_eq_ok _ _)]
  dsimp only
  generalize (s₁.addRow event args track).stepBus event.busRow = stepped
  obtain ⟨_ | t, s₂⟩ := stepped <;> rfl

theorem takeRow_of_error {s : Session} {schema : Schema} {line : String} {failure : Failure}
    (hevent : Event.ofRow s.config schema (schema.pad (fields line)) = .error failure) :
    takeRow schema line s = .error failure s := by
  unfold takeRow
  rw [bind_of_ok (get_eq_ok s), bind_of_error (ofExcept_of_error hevent s)]

theorem takeHeader_eq (s : Session) (line : String) :
    takeHeader line s =
      match Schema.ofFields (fields line) with
      | .ok schema => .ok () (s.setSchema schema)
      | .error failure => .error failure s := by
  unfold takeHeader
  cases hschema : Schema.ofFields (fields line) with
  | error failure => rw [bind_of_error (ofExcept_of_error rfl s)]
  | ok schema =>
      rw [bind_of_ok (ofExcept_of_ok rfl s)]
      rfl

/-- Taking in a line amounts to reading it and then adding what it says, which cannot fail. -/
theorem takeLine_eq (s : Session) (line : String) :
    takeLine line s =
      match s.read line with
      | .ok entry => .ok () (s.add entry)
      | .error failure => .error failure s := by
  unfold takeLine read
  dsimp only
  split
  · rfl
  · rw [bind_of_ok (get_eq_ok s)]
    cases s.schema with
    | none =>
        dsimp only
        rw [takeHeader_eq]
        cases Schema.ofFields (fields (stripReturn line)) <;> rfl
    | some schema =>
        obtain ⟨args, hargs, hcells⟩ := ofCells_eq s.config schema (fields (stripReturn line))
        dsimp only
        rw [hcells]
        cases hevent : Event.ofRow s.config schema
          (schema.pad (fields (stripReturn line))) with
        | error failure => rw [takeRow_of_error hevent]; rfl
        | ok event => rw [takeRow_of_ok hevent hargs]; rfl

/-- A line that fails leaves what has been read as it was. -/
theorem takeLine_error {s s' : Session} {line : String} {failure : Failure}
    (h : takeLine line s = .error failure s') : s' = s := by
  rw [takeLine_eq] at h
  split at h
  · cases h
  · exact (EStateM.Result.error.inj h).2.symm

theorem takeDecoded_error {s s' : Session} {line : Text.Decoded} {failure : Failure}
    (h : takeDecoded line s = .error failure s') : s' = s := by
  cases line with
  | ok text => exact takeLine_error h
  | error reason => exact (EStateM.Result.error.inj h).2.symm

/-! ## What stays the same -/

theorem frame_trackFor (s : Session) (analyzer : String) :
    (s.trackFor analyzer).2.config = s.config ∧ (s.trackFor analyzer).2.schema = s.schema := by
  unfold trackFor
  split <;> exact ⟨rfl, rfl⟩

theorem frame_onRow (s : Session) (event : Event) (args : List Arg) :
    (s.onRow event args).config = s.config ∧ (s.onRow event args).schema = s.schema := by
  obtain ⟨hconfig, hschema⟩ := frame_trackFor s event.analyzer
  rw [← hconfig, ← hschema]
  unfold onRow
  dsimp only
  split <;> next heq => exact ⟨congrArg (·.2.config) heq.symm, congrArg (·.2.schema) heq.symm⟩

end Session

end LogicCapture.Csv
