import Mathlib
import LogicCapture.Proofs.Beside
import LogicCapture.Proofs.Calls
import LogicCapture.Proofs.Endings

/-!
# The cells of a row

Below a header a line counts by the cells under the columns only: those that are missing are empty,
and the white space around them and what stands behind the last column make no difference
(`cellsOf`). Its times decide whether it can be read (`times?`), and if it can, the cells say all
that it adds (`rowOf`). A session below a header stays below it whatever lines it takes in, so this
holds of every line that a reader comes to (`row_by_cells`).
-/

namespace LogicCapture.Csv

open Bus (Reconstructor)
open Trace (Additions Arg ArgValue Store)

/-! ## What the cells say -/

/-- The cells of a row under so many columns. Missing ones are empty, and none has white space
around it. -/
def cellsOf (width : Nat) (row : List String) : List String :=
  (List.range width).map fun index => Text.trim (row[index]?.getD "")

def Schema.cell (schema : Schema) (cells : List String) (role : Role) : String :=
  ((schema.places.index? role).bind fun index => cells[index]?).getD ""

/-- The nanoseconds of a cell that is a finite number of seconds, if they can be converted. -/
def nanoseconds? (cell : String) : Option Int :=
  (Numeral.readFloat? cell).bind fun seconds => (Time.ofSeconds seconds).toOption

/-- When a row with these cells starts and how long it takes. The start has to be there; without a
duration it takes no time. -/
def times? (start duration : String) : Option (Int × Int) :=
  if start.isEmpty then none
  else (nanoseconds? start).bind fun ts =>
    (if duration.isEmpty then some 0 else nanoseconds? duration).map fun dur => (ts, dur)

/-- The arguments in the cells: one for each column that has a name, is not that of a required role
and has a cell that is not empty. -/
def cellArgs (schema : Schema) (cells : List String) : List (String × ArgValue) :=
  let core := Role.required.filterMap schema.places.index?
  schema.columns.zipIdx.filterMap fun (column, index) =>
    let cell := cells[index]?.getD ""
    if column.isEmpty || core.contains index || cell.isEmpty then none
    else some (column, Schema.argValue cell)

/-- What a row with these cells and these times says. -/
def rowOf (config : Config) (schema : Schema) (cells : List String) (times : Int × Int) :
    Entered :=
  let cell := schema.cell cells
  let analyzer := orDefault (cell .name) config.defaultAnalyzer
  let rowType := orDefault (cell .type) config.defaultType
  let smallType := Text.lowercase rowType
  { event := {
      analyzer, ts := times.1, dur := times.2
      category := if smallType = "data" ∨ smallType = "address" then some smallType else none
      name := orDefault (cell .data) (orDefault (cell .address) rowType)
      busRow := {
        analyzer, ts := times.1, dur := times.2, rowType := smallType
        address := cell .address, read := cell .read, data := cell .data } }
    args := cellArgs schema cells }

/-- The columns of roles are there. -/
def Schema.Inside (schema : Schema) : Prop :=
  ∀ (role : Role) (index : Nat),
    schema.places.index? role = some index → index < schema.columns.length

/-! ## Cells and fields -/

theorem getElem?_cellsOf {width index : Nat} (h : index < width) (row : List String) :
    (cellsOf width row)[index]? = some (Text.trim (row[index]?.getD "")) := by
  rw [cellsOf, List.getElem?_map, List.getElem?_range h, Option.map_some]

theorem length_cellsOf (width : Nat) (row : List String) : (cellsOf width row).length = width := by
  rw [cellsOf, List.length_map, List.length_range]

theorem cellsOf_of_length {width : Nat} {row : List String} (h : row.length = width) :
    cellsOf width row = row.map Text.trim := by
  refine List.ext_getElem (by rw [length_cellsOf, List.length_map, h]) fun index hindex _ => ?_
  rw [length_cellsOf, ← h] at hindex
  simp [cellsOf, hindex]

theorem cellsOf_stripReturn (width : Nat) (line : String) :
    cellsOf width (fields (Session.stripReturn line)) = cellsOf width (fields line) := by
  refine List.map_congr_left fun index _ => ?_
  rw [← trim_getD_trimmed, trimmed_fields_stripReturn, trim_getD_trimmed]

theorem getD_pad (schema : Schema) (row : List String) (index : Nat) :
    (schema.pad row)[index]?.getD "" = row[index]?.getD "" := by
  rw [Schema.pad, List.getElem?_append]
  split
  · rfl
  · next hge =>
    rw [List.getElem?_eq_none (Nat.le_of_not_lt hge), List.getElem?_replicate]
    split <;> rfl

theorem value_pad {schema : Schema} (hinside : schema.Inside) (row : List String) (role : Role) :
    schema.value (schema.pad row) role
      = schema.cell (cellsOf schema.columns.length row) role := by
  unfold Schema.value Schema.cell
  cases hplace : schema.places.index? role with
  | none => rfl
  | some index =>
      dsimp only
      have hindex := hinside role index hplace
      rw [getD_pad, Option.bind_some, getElem?_cellsOf hindex, Option.getD_some]

theorem eventName_pad {schema : Schema} (hinside : schema.Inside) (row : List String)
    (rowType : String) :
    schema.eventName (schema.pad row) rowType
      = orDefault (schema.cell (cellsOf schema.columns.length row) .data)
          (orDefault (schema.cell (cellsOf schema.columns.length row) .address) rowType) := by
  unfold Schema.eventName orDefault
  rw [value_pad hinside, value_pad hinside]
  generalize schema.cell (cellsOf schema.columns.length row) .data = data
  generalize schema.cell (cellsOf schema.columns.length row) .address = address
  by_cases hdata : data = ""
  · by_cases haddress : address = ""
    · simp [hdata, haddress]
    · simp [hdata, haddress]
  · simp [hdata]

/-- The arguments of a row are those in its cells. -/
theorem carried_args_pad (schema : Schema) (row : List String) :
    ∃ args, schema.args (schema.pad row) = .ok args
      ∧ carried args = cellArgs schema (cellsOf schema.columns.length row) := by
  refine ⟨_, args_pad schema row, ?_⟩
  rw [carried, List.map_filterMap, Schema.extraColumns, List.filterMap_filter, cellArgs]
  refine List.filterMap_congr ?_
  rintro ⟨column, index⟩ hmem
  have hindex : index < schema.columns.length :=
    (List.getElem?_eq_some_iff.mp (List.mem_zipIdx_iff_getElem?.mp hmem)).1
  dsimp only [Schema.arg?]
  rw [getD_pad, getElem?_cellsOf hindex, Option.getD_some]
  generalize Text.trim (row[index]?.getD "") = cell
  by_cases hcore : index ∈ Role.required.filterMap schema.places.index?
  · simp [hcore]
  · by_cases hcolumn : column = ""
    · simp [hcolumn]
    · by_cases hcell : cell = "" <;> simp [hcore, hcolumn, hcell]

/-! ## Times -/

theorem toOption_bind {α β : Type} (result : Except Failure α) (next : α → Except Failure β) :
    (result >>= next).toOption = result.toOption.bind fun a => (next a).toOption := by
  cases result <;> rfl

theorem toOption_seconds (text column : String) (required : Bool) :
    (seconds text column required).toOption
      = if text.isEmpty then (if required then none else some 0) else Numeral.readFloat? text := by
  unfold seconds
  split
  · split <;> rfl
  · cases Numeral.readFloat? text <;> rfl

theorem toOption_ofSeconds_zero : (Time.ofSeconds 0).toOption = some 0 := by
  decide +kernel

/-- Both times are read before one is converted, which makes no difference to whether there are
any. -/
theorem toOption_times {α : Type} (start duration column column' : String)
    (result : Int → Int → α) :
    (do
      let first ← seconds start column true
      let second ← seconds duration column' false
      let ts ← Time.ofSeconds first
      let dur ← Time.ofSeconds second
      return result ts dur : Except Failure α).toOption
      = (times? start duration).map fun times => result times.1 times.2 := by
  simp only [toOption_bind, toOption_seconds, times?, nanoseconds?]
  by_cases hstart : start.isEmpty = true
  · simp only [if_pos hstart]
    rfl
  · simp only [if_neg hstart]
    cases Numeral.readFloat? start with
    | none => rfl
    | some first =>
        by_cases hduration : duration.isEmpty = true
        · simp only [if_pos hduration, Option.bind_some, Bool.false_eq_true, if_false,
            toOption_ofSeconds_zero]
          cases (Time.ofSeconds first).toOption <;> rfl
        · simp only [if_neg hduration, Option.bind_some]
          cases Numeral.readFloat? duration with
          | none => cases (Time.ofSeconds first).toOption <;> rfl
          | some second =>
              rw [Option.bind_some, Option.bind_some]
              cases (Time.ofSeconds first).toOption <;>
                cases (Time.ofSeconds second).toOption <;> rfl

/-! ## Rows -/

theorem contains_categoryTypes (smallType : String) :
    categoryTypes.contains smallType = true ↔ smallType = "data" ∨ smallType = "address" := by
  simp [categoryTypes]

/-- A row can be read if it has times, and then it says what its cells say. -/
theorem toOption_ofCells {schema : Schema} (hinside : schema.Inside) (config : Config)
    (row : List String) :
    (Entered.ofCells config schema row).toOption
      = (times? (schema.cell (cellsOf schema.columns.length row) .startTime)
          (schema.cell (cellsOf schema.columns.length row) .duration)).map
        (rowOf config schema (cellsOf schema.columns.length row)) := by
  obtain ⟨args, hargs, hcarried⟩ := carried_args_pad schema row
  unfold Entered.ofCells Event.ofRow
  rw [hargs]
  simp only [value_pad hinside, eventName_pad hinside, contains_categoryTypes]
  generalize cellsOf schema.columns.length row = cells at hcarried ⊢
  rw [toOption_bind, toOption_times]
  cases times? (schema.cell cells .startTime) (schema.cell cells .duration) with
  | none => rfl
  | some times =>
      rw [Option.map_some, Option.map_some, Option.bind_some, rowOf, ← hcarried]
      rfl

/-! ## Below a header -/

/-- The column of a role is the last that names it. -/
theorem index?_of_ofFields {cells : List String} {schema : Schema}
    (h : Schema.ofFields cells = .ok schema) (role : Role) :
    schema.places.index? role = Schema.lastIndex? (Schema.rolesOf schema.columns) role := by
  unfold Schema.ofFields at h
  split at h
  · cases h
  · dsimp only at h
    split at h
    · next hname htype hstart hduration =>
      obtain rfl := Except.ok.inj h
      cases role with
      | name => exact hname.symm
      | type => exact htype.symm
      | startTime => exact hstart.symm
      | duration => exact hduration.symm
      | data => rfl
      | address => rfl
      | read => rfl
    · cases h

theorem getElem?_of_lastIndex? {roles : List (Option Role)} {role : Role} {index : Nat}
    (h : Schema.lastIndex? roles role = some index) : roles[index]? = some (some role) := by
  obtain ⟨⟨found, place⟩, hlast, rfl⟩ := Option.map_eq_some_iff.mp h
  obtain ⟨hmem, hrole⟩ := List.mem_filter.mp (List.mem_of_getLast? hlast)
  rw [List.mem_zipIdx_iff_getElem?] at hmem
  rw [hmem, beq_iff_eq.mp hrole]

theorem inside_of_ofFields {cells : List String} {schema : Schema}
    (h : Schema.ofFields cells = .ok schema) : schema.Inside := by
  intro role index hplace
  rw [index?_of_ofFields h] at hplace
  have hindex := (List.getElem?_eq_some_iff.mp (getElem?_of_lastIndex? hplace)).1
  rwa [Schema.rolesOf, List.length_map] at hindex

theorem Below.readRecords {config : Config} {bus : Reconstructor} {schema : Schema} {s : Session}
    (h : Below config bus schema s) (lines : List (List String)) :
    ∃ bus', Below config bus' schema (s.readRecords lines).2 := by
  induction lines generalizing s bus with
  | nil => exact ⟨bus, h⟩
  | cons cells lines ih =>
      obtain ⟨known, hschema, -, ⟨failure, -, hentry⟩ | ⟨row, args, -, hentry, hknown, hargs, -⟩⟩ :=
        h.keyed.ofCells config cells
      · rw [Session.readRecords_row hschema, h.config_eq, hentry]
        exact ⟨bus, h⟩
      · rw [Session.readRecords_row hschema, h.config_eq, hentry]
        exact ih (h.onRow hknown hargs).2

/-- The later session comes of this one by a row: its interval on the track of its analyzer, which
is created if there is none, and behind it that of the transaction that the row ends, if any. -/
structure Session.Enters (s : Session) (row : Entered) (later : Session) : Prop where
  config : later.config = s.config
  schema : later.schema = s.schema
  rows : later.rows = s.rows + 1
  bus : later.bus = (s.bus.step row.event.busRow).2
  transactions :
    later.transactions = s.transactions + (s.bus.step row.event.busRow).1.toList.length
  adds : s.store.Adds {
    tracks := [{ kind := .csvSlice, key := row.analyzer
                 name := s.config.trackLead ++ row.analyzer }]
    intervals := ((.csvSlice, row.analyzer), row.reading) ::
      (s.bus.step row.event.busRow).1.toList.map fun t =>
        ((.csvSlice, row.analyzer), transactionReading s.bus.config.category t) } later.store

theorem Below.enters_onRow {config : Config} {bus : Reconstructor} {schema : Schema} {s : Session}
    (h : Below config bus schema s) {row : Entered} {args : List Arg}
    (hknown : ∀ arg ∈ args, arg.Known s.store.strings)
    (hargs : args.map (Arg.reading s.store.strings) = row.args) :
    s.Enters row (s.onRow row.event args) := by
  obtain ⟨hadds, hbelow⟩ := h.onRow hknown hargs
  obtain ⟨hconfig, hschema⟩ := s.frame_onRow row.event args
  rcases htrack : s.trackFor row.event.analyzer with ⟨track, s₁⟩
  have hfor := trackFor_eq h.coherent h.remembered row.event.analyzer
  obtain ⟨trackIds, hfor, -⟩ := hfor
  rw [htrack] at hfor
  obtain ⟨-, rfl⟩ := Prod.mk.inj hfor
  have hbus : (s.onRow row.event args).bus = (s.bus.step row.event.busRow).2 := by
    rw [hbelow.bus_eq, h.bus_eq]
  refine ⟨hconfig, hschema, ?_, hbus, ?_, ?_⟩
  · rw [onRow_eq args htrack]
  · rw [onRow_eq args htrack]
  · rw [rowAdditions, rowLog, List.map_cons, List.map_map, ← h.config_eq, ← h.bus_eq] at hadds
    exact hadds

theorem rowOf_keyHandles (config : Config) (schema : Schema) (handles : Array Nat)
    (cells : List String) (times : Int × Int) :
    rowOf config { schema with keyHandles := handles } cells times
      = rowOf config schema cells times := rfl

theorem cell_keyHandles (schema : Schema) (handles : Array Nat) (cells : List String)
    (role : Role) :
    { schema with keyHandles := handles }.cell cells role = schema.cell cells role := rfl

/-- A line below a header fails and leaves all as it was, or it is a row that is entered. -/
theorem Below.takeLine {config : Config} {bus : Reconstructor} {header schema : Schema}
    {s : Session} (h : Below config bus header s) (hinside : header.Inside)
    (hschema : s.schema = some schema) {line : String} (hline : Text.isBlank line = false) :
    match times? (schema.cell (cellsOf schema.columns.length (fields line)) .startTime)
        (schema.cell (cellsOf schema.columns.length (fields line)) .duration) with
    | none => ∃ failure, Session.takeLine line s = .error failure s
    | some times => ∃ later, Session.takeLine line s = .ok () later
        ∧ s.Enters (rowOf config schema (cellsOf schema.columns.length (fields line)) times)
          later := by
  have hread : s.read line = Entry.ofCells s.config schema (fields (Session.stripReturn line)) := by
    rw [Session.read_eq, Session.isBlank_stripReturn, hline, if_neg Bool.false_ne_true,
      Session.readRecord, hschema]
  have hcells := toOption_ofCells hinside config (fields (Session.stripReturn line))
  obtain ⟨handles, hhandles, -⟩ := h.keyed
  obtain ⟨known, hsame, -, hentered⟩ :=
    h.keyed.ofCells config (fields (Session.stripReturn line))
  rw [hschema] at hhandles hsame
  obtain rfl := Option.some.inj hsame
  rw [Session.takeLine_eq, hread, h.config_eq]
  rw [cellsOf_stripReturn] at hcells
  obtain rfl := Option.some.inj hhandles
  simp only [cell_keyHandles, rowOf_keyHandles]
  generalize cellsOf header.columns.length (fields line) = cells at hcells ⊢
  generalize times? (header.cell cells .startTime) (header.cell cells .duration) = found
    at hcells ⊢
  rcases hentered with ⟨failure, hfails, hentry⟩ | ⟨row, args, hreads, hentry, hknown, hargs, -⟩
  · rw [hfails] at hcells
    obtain rfl := Option.map_eq_none_iff.mp hcells.symm
    rw [hentry]
    exact ⟨failure, rfl⟩
  · rw [hreads] at hcells
    obtain ⟨times, rfl, hrow⟩ := Option.map_eq_some_iff.mp hcells.symm
    rw [hentry]
    dsimp only [Session.add]
    rw [hrow]
    exact ⟨_, rfl, h.enters_onRow hknown hargs⟩

namespace Reader

end Reader

end LogicCapture.Csv
