import Mathlib
import LogicCapture.Proofs.Growth
import LogicCapture.Proofs.Headers
import LogicCapture.Proofs.Intervals

/-!
# What a session has written down

Which rows an export has, and what they say, can be read off its lines with no store at hand
(`entries`). From an empty store a session that has read these lines has written down exactly that,
and nothing else (`Books`): a track for each analyzer in the order of their first rows, and behind
each other the intervals of the rows, each followed by the transaction that the row ends (`log`).
Every row that is read keeps this (`Books.onRow`), so all lines do (`books_readAll`).
-/

namespace LogicCapture

namespace Csv

open Bus (Reconstructor)
open Trace (Arg ArgValue Interval Reading Slice Store StringPool TrackRow)

/-! ## What an export says -/

/-- What arguments say whose keys have no handles, or have those of their texts. -/
def carried (args : List Arg) : List (String × ArgValue) :=
  args.map fun arg => (arg.key, arg.value)

/-- A row that has been read: its event and the arguments it carries. -/
structure Entered where
  event : Event
  args : List (String × ArgValue)
  deriving Repr, DecidableEq

namespace Entered

def analyzer (row : Entered) : String := row.event.analyzer

def reading (row : Entered) : Reading :=
  { ts := row.event.ts, dur := row.event.dur, category := row.event.category
    name := row.event.name, args := row.args }

/-- The row that these cells are below a header. -/
def ofCells (config : Config) (schema : Schema) (cells : List String) :
    Except Failure Entered := do
  let event ← Event.ofRow config schema (schema.pad cells)
  let args ← schema.args (schema.pad cells)
  return { event, args := carried args }

end Entered

/-- The rows of an export, or what is wrong with its header or with the first row that cannot be
read. -/
def entries (config : Config) (lines : List String) : Except Failure (List Entered) :=
  match records lines with
  | [] => .ok []
  | header :: rows => do
    let schema ← Schema.ofFields header
    rows.mapM (Entered.ofCells config schema)

/-- The rows with these cells, up to the first that cannot be read, and what is wrong with that. -/
def rowsUpTo (config : Config) (schema : Schema) :
    List (List String) → Option Failure × List Entered
  | [] => (none, [])
  | cells :: rest =>
    match Entered.ofCells config schema cells with
    | .ok row =>
      let (failure, rows) := rowsUpTo config schema rest
      (failure, row :: rows)
    | .error failure => (some failure, [])

/-- The rows of an export, up to the first that cannot be read, and what is wrong with that or with
the header. -/
def entriesUpTo (config : Config) (lines : List String) : Option Failure × List Entered :=
  match records lines with
  | [] => (none, [])
  | header :: rows =>
    match Schema.ofFields header with
    | .ok schema => rowsUpTo config schema rows
    | .error failure => (some failure, [])

/-- The analyzers of some rows in the order of their first rows. -/
def analyzers (rows : List Entered) : List String :=
  (rows.map Entered.analyzer).eraseDups

def transactionReading (category : String) (t : Bus.Transaction) : Reading :=
  { ts := t.start, dur := t.duration, category := some category, name := t.name
    args := carried t.args }

/-- The intervals that a row leaves, with its analyzer: its own, and behind it that of the
transaction that it ends, if it ends one. -/
def rowLog (r : Reconstructor) (row : Entered) : List (String × Reading) :=
  (row.analyzer, row.reading) :: (r.step row.event.busRow).1.toList.map fun t =>
    (row.analyzer, transactionReading r.config.category t)

def log (r : Reconstructor) : List Entered → List (String × Reading)
  | [] => []
  | row :: rows => rowLog r row ++ log (r.step row.event.busRow).2 rows

def trackTable (lead : String) (names : List String) : List TrackRow :=
  names.zipIdx.map fun (name, id) => { id, kind := .csvSlice, key := name, name := lead ++ name }

/-- The intervals of the store are those of the log, on the tracks of their analyzers. -/
def Logged (trackIds : Std.TreeMap String Nat) (store : Store)
    (entries : List (String × Reading)) : Prop :=
  List.Forall₂ (fun slice entry =>
      (∃ id : Nat, trackIds[entry.1]? = some id ∧ slice.track = (id : Int))
        ∧ slice.Means store.strings entry.2)
    store.slices.toList entries

/-- What a session has written down is these rows and nothing else. The tracks are those of their
analyzers, which are remembered; the intervals are those of the log; the keys of arguments are
names of columns; and the bus has taken these rows. -/
structure Books (config : Config) (bus : Bus.Config) (rows : List Entered) (s : Session) :
    Prop where
  config_eq : s.config = config
  coherent : s.store.Coherent
  count : s.rows = rows.length
  size : s.store.slices.size = s.rows + s.transactions
  tracks : s.store.trackRows = trackTable config.trackLead (analyzers rows)
  trackIds : ∀ (name : String) (id : Nat),
    s.trackIds[name]? = some id ↔ (analyzers rows)[id]? = some name
  slices : Logged s.trackIds s.store (log { config := bus } rows)
  keys : ∀ row ∈ rows, ∀ arg ∈ row.args, ∃ schema, s.schema = some schema
    ∧ arg.1 ∈ schema.columns ∧ arg.1 ≠ "" ∧ Text.trim arg.1 = arg.1
  bus : s.bus = (Reconstructor.run { config := bus } (rows.map (·.event.busRow))).2
  states : ∀ name ∈ s.bus.states.map (·.1), name ∈ analyzers rows

/-! ## Tracks -/

def enrol (names : List String) (name : String) : List String :=
  if name ∈ names then names else names ++ [name]

theorem prefix_enrol (names : List String) (name : String) : names <+: enrol names name := by
  unfold enrol
  split
  · exact List.prefix_refl _
  · exact List.prefix_append _ _

theorem analyzers_concat (rows : List Entered) (row : Entered) :
    analyzers (rows ++ [row]) = enrol (analyzers rows) row.analyzer := by
  have hmem : row.analyzer ∈ analyzers rows ↔ row.analyzer ∈ rows.map Entered.analyzer :=
    List.mem_eraseDups
  rw [analyzers, List.map_append, List.eraseDups_append, List.map_singleton, List.removeAll, enrol]
  by_cases h : row.analyzer ∈ rows.map Entered.analyzer
  · rw [if_pos (hmem.mpr h), List.filter_cons_of_neg (by simpa using h), List.filter_nil,
      List.eraseDups_nil, List.append_nil, analyzers]
  · rw [if_neg (fun hin => h (hmem.mp hin)), List.filter_cons_of_pos (by simpa using h),
      List.filter_nil, List.eraseDups_cons, List.filter_nil, List.eraseDups_nil, analyzers]

theorem trackTable_concat (lead : String) (names : List String) (name : String) :
    trackTable lead (names ++ [name]) = trackTable lead names
      ++ [{ id := names.length, kind := .csvSlice, key := name, name := lead ++ name }] := by
  rw [trackTable, List.zipIdx_append, List.map_append, trackTable]
  simp

theorem mem_trackTable {lead : String} {names : List String} {row : TrackRow} :
    row ∈ trackTable lead names ↔ names[row.id]? = some row.key ∧ row.kind = .csvSlice
      ∧ row.name = lead ++ row.key := by
  rw [trackTable, List.mem_map]
  constructor
  · rintro ⟨⟨name, id⟩, hmem, rfl⟩
    exact ⟨List.mem_zipIdx_iff_getElem?.mp hmem, rfl, rfl⟩
  · rintro ⟨hkey, hkind, hname⟩
    refine ⟨(row.key, row.id), List.mem_zipIdx_iff_getElem?.mpr hkey, ?_⟩
    dsimp only
    rw [← hkind, ← hname]

/-- A name that is not there is put behind the others. -/
theorem getElem?_insert_iff {trackIds : Std.TreeMap String Nat} {names : List String}
    (hids : ∀ (name : String) (id : Nat), trackIds[name]? = some id ↔ names[id]? = some name)
    {name : String} (hnot : name ∉ names) (other : String) (id : Nat) :
    (trackIds.insert name names.length)[other]? = some id
      ↔ (names ++ [name])[id]? = some other := by
  rw [Std.TreeMap.getElem?_insert, List.getElem?_append]
  by_cases hsame : name = other
  · subst hsame
    rw [if_pos (Std.LawfulEqCmp.compare_eq_iff_eq.mpr rfl)]
    split
    · next hlt =>
      exact ⟨fun h => absurd (Option.some.inj h) (Nat.ne_of_gt hlt),
        fun h => absurd (List.mem_of_getElem? h) hnot⟩
    · next hge =>
      rw [List.getElem?_singleton]
      simp only [Option.some.injEq, Option.ite_none_right_eq_some, and_true]
      omega
  · rw [if_neg (fun heq => hsame (Std.LawfulEqCmp.compare_eq_iff_eq.mp heq)), hids]
    split
    · rfl
    · next hge =>
      rw [List.getElem?_eq_none (Nat.le_of_not_lt hge), List.getElem?_singleton]
      simp [hsame]

/-- Finding the track of an analyzer enrols it. -/
theorem trackFor_enrols {s : Session} (hcoherent : s.store.Coherent) {names : List String}
    (htracks : s.store.trackRows = trackTable s.config.trackLead names)
    (hids : ∀ (name : String) (id : Nat), s.trackIds[name]? = some id ↔ names[id]? = some name)
    (name : String) :
    ∃ (id : Nat) (store : Store) (trackIds : Std.TreeMap String Nat),
      s.trackFor name = (id, { s with store, trackIds }) ∧ trackIds[name]? = some id
        ∧ Store.Calls s.store store ∧ store.slices = s.store.slices
        ∧ store.trackRows = trackTable s.config.trackLead (enrol names name)
        ∧ ∀ (other : String) (id : Nat),
          trackIds[other]? = some id ↔ (enrol names name)[id]? = some other := by
  unfold Session.trackFor
  cases hknown : s.trackIds[name]? with
  | some id =>
      have hmem : name ∈ names := List.mem_of_getElem? ((hids name id).mp hknown)
      rw [enrol, if_pos hmem]
      exact ⟨id, s.store, s.trackIds, rfl, hknown, .none, rfl, htracks, hids⟩
  | none =>
      have hnot : name ∉ names := by
        intro hmem
        obtain ⟨id, hid⟩ := List.mem_iff_getElem?.mp hmem
        rw [(hids name id).mpr hid] at hknown
        cases hknown
      have hlength : s.store.tracks.size = names.length := by
        have hrows := congrArg List.length htracks
        simpa [Store.trackRows, trackTable] using hrows
      have hnew : s.store.findTrack? .csvSlice name = none := by
        rw [Store.findTrack?_eq_none_iff, ← Store.map_key_trackRows, htracks]
        rw [trackTable, List.map_map, List.mem_map]
        rintro ⟨⟨other, id⟩, hmem, heq⟩
        obtain ⟨-, rfl⟩ := Prod.mk.inj heq
        exact hnot (List.fst_mem_of_mem_zipIdx hmem)
      obtain ⟨hid, hrows⟩ :=
        hcoherent.trackRows_internTrack hnew (s.config.trackLead ++ name)
      have hcalls : Store.Calls s.store _ :=
        Store.Calls.none.track .csvSlice name (s.config.trackLead ++ name)
      have hslices := s.store.slices_internTrack .csvSlice name (s.config.trackLead ++ name)
      dsimp only
      generalize s.store.internTrack .csvSlice name (s.config.trackLead ++ name) = interned
        at hid hrows hcalls hslices
      obtain ⟨track, store⟩ := interned
      dsimp only at hid hrows hcalls hslices
      rw [hlength] at hid hrows
      subst hid
      rw [enrol, if_neg hnot]
      refine ⟨_, store, _, rfl, Std.TreeMap.getElem?_insert_self, hcalls, hslices, ?_, ?_⟩
      · rw [hrows, htracks, trackTable_concat]
      · exact getElem?_insert_iff hids hnot

/-! ## Intervals -/

theorem log_concat (r : Reconstructor) (rows : List Entered) (row : Entered) :
    log r (rows ++ [row])
      = log r rows ++ rowLog (r.run (rows.map (·.event.busRow))).2 row := by
  induction rows generalizing r with
  | nil =>
      rw [List.nil_append, log, log, log, List.append_nil]
      rfl
  | cons first rows ih =>
      rw [List.cons_append, log, log, ih, List.map_cons, Reconstructor.run_cons, List.append_assoc]

/-- What has been logged stays so while texts and tracks are added. -/
theorem Logged.mono {trackIds later : Std.TreeMap String Nat} {store store' : Store}
    {entries : List (String × Reading)} (h : Logged trackIds store entries)
    (hids : ∀ (name : String) (id : Nat), trackIds[name]? = some id → later[name]? = some id)
    (hgrows : store.GrowsTo store') (hslices : store'.slices = store.slices) :
    Logged later store' entries := by
  unfold Logged
  rw [hslices]
  refine List.Forall₂.imp ?_ h
  rintro slice entry ⟨⟨id, hid, htrack⟩, hmeans⟩
  exact ⟨⟨id, hids _ _ hid, htrack⟩, hmeans.mono hgrows.strings⟩

/-- Intervals on the track of an analyzer are logged behind the others. -/
theorem Logged.addIntervals {trackIds : Std.TreeMap String Nat} {store : Store}
    {entries : List (String × Reading)} (h : Logged trackIds store entries) {name : String}
    {id : Nat} (hid : trackIds[name]? = some id) {intervals : List Interval}
    (hintervals : ∀ interval ∈ intervals, interval.track = id ∧ interval.Known store.strings) :
    Store.Calls store (intervals.foldl Store.addInterval store)
      ∧ (intervals.foldl Store.addInterval store).tracks = store.tracks
      ∧ (intervals.foldl Store.addInterval store).slices.size
        = store.slices.size + intervals.length
      ∧ Logged trackIds (intervals.foldl Store.addInterval store)
        (entries ++ intervals.map fun interval => (name, interval.reading store.strings)) := by
  induction intervals generalizing store entries with
  | nil => exact ⟨.none, rfl, rfl, (List.append_nil entries).symm ▸ h⟩
  | cons interval intervals ih =>
      obtain ⟨⟨htrack, hknown⟩, hrest⟩ := List.forall_mem_cons.mp hintervals
      have hcall := Store.Calls.none.interval interval hknown
      have hgrows := hcall.growsTo.strings
      have hnext : Logged trackIds (store.addInterval interval)
          (entries ++ [(name, interval.reading store.strings)]) := by
        obtain ⟨strings, slice, heq, hlater, hslice, hmeans⟩ := Store.addInterval_spec hknown
        have hold : Logged trackIds { store with strings } entries := h.mono
          (fun _ _ hsame => hsame)
          ⟨hlater, List.prefix_refl _, List.prefix_refl _, List.prefix_refl _⟩ rfl
        rw [heq]
        unfold Logged
        rw [Array.toList_push]
        exact List.rel_append hold (.cons ⟨⟨id, hid, hslice.trans htrack⟩, hmeans⟩ .nil)
      obtain ⟨hcalls, htracks, hsize, hlogged⟩ := ih hnext fun other hother =>
        ⟨(hrest other hother).1, (hrest other hother).2.mono hgrows⟩
      have hreadings : (intervals.map fun other =>
            (name, other.reading (store.addInterval interval).strings))
          = intervals.map fun other => (name, other.reading store.strings) :=
        List.map_congr_left fun other hother =>
          congrArg (Prod.mk name) ((hrest other hother).2.reading_eq hgrows)
      rw [hreadings, List.append_assoc] at hlogged
      rw [Store.size_slices_addInterval] at hsize
      rw [List.foldl_cons, List.length_cons]
      exact ⟨hcall.trans hcalls, htracks, by omega, hlogged⟩

theorem mem_log {row : Entered} {rows : List Entered} (h : row ∈ rows) (r : Reconstructor) :
    (row.analyzer, row.reading) ∈ log r rows := by
  induction rows generalizing r with
  | nil => cases h
  | cons first rows ih =>
      rw [log]
      rcases List.mem_cons.mp h with rfl | hlater
      · exact List.mem_append_left _ List.mem_cons_self
      · exact List.mem_append_right _ (ih hlater _)

/-- Every track has an interval: that of the first row of its analyzer. -/
theorem Books.exists_slice {config : Config} {bus : Bus.Config} {rows : List Entered} {s : Session}
    (h : Books config bus rows s) {track : TrackRow} (htrack : track ∈ s.store.trackRows) :
    ∃ slice ∈ s.store.slices, slice.track = track.id := by
  rw [h.tracks] at htrack
  have hname := (mem_trackTable.mp htrack).1
  have hanalyzer : track.key ∈ rows.map Entered.analyzer :=
    List.mem_eraseDups.mp (List.mem_of_getElem? hname)
  obtain ⟨row, hrow, hkey⟩ := List.mem_map.mp hanalyzer
  rw [← hkey] at hname
  obtain ⟨i, hi, hentry⟩ := List.getElem_of_mem (mem_log hrow { config := bus })
  have hslices := h.slices
  have hslice : i < s.store.slices.toList.length := hslices.length_eq ▸ hi
  obtain ⟨⟨other, hother, hplace⟩, -⟩ := hslices.get hslice hi
  rw [List.get_eq_getElem, hentry, (h.trackIds _ _).mpr hname] at hother
  obtain rfl := Option.some.inj hother
  exact ⟨_, Array.mem_toList_iff.mp (List.getElem_mem hslice), hplace⟩

/-! ## Arguments -/

/-- Of the cells of a row only the event can fail, and no handle of a column name matters. -/
theorem Entered.ofCells_eq (config : Config) {schema : Schema} {handles : Array Nat}
    {cells : List String} {args : List Arg}
    (h : { schema with keyHandles := handles }.args (schema.pad cells) = .ok args) :
    Entered.ofCells config schema cells
      = (Event.ofRow config schema (schema.pad cells)).map fun event =>
        { event, args := carried args } := by
  have hpadded := args_pad { schema with keyHandles := handles } cells
  change { schema with keyHandles := handles }.args (schema.pad cells) = _ at hpadded
  rw [hpadded] at h
  obtain rfl := Except.ok.inj h
  have hcarried : carried (schema.extraColumns.filterMap fun (column, index) =>
        schema.arg? index column ((schema.pad cells)[index]?.getD ""))
      = carried (schema.extraColumns.filterMap fun (column, index) =>
        { schema with keyHandles := handles }.arg? index column
          ((schema.pad cells)[index]?.getD "")) := by
    rw [carried, carried, List.map_filterMap, List.map_filterMap]
    refine List.filterMap_congr fun ⟨column, index⟩ _ => ?_
    dsimp only [Schema.arg?]
    split <;> rfl
  unfold Entered.ofCells
  rw [args_pad]
  cases Event.ofRow config schema (schema.pad cells) with
  | error failure => rfl
  | ok event => exact congrArg (fun args => Except.ok (⟨event, args⟩ : Entered)) hcarried

theorem mem_args_pad {schema : Schema} {cells : List String} {args : List Arg}
    (h : schema.args (schema.pad cells) = .ok args) {arg : Arg} (harg : arg ∈ args) :
    ∃ index, (arg.key, index) ∈ schema.extraColumns
      ∧ arg.keyHandle = schema.keyHandle? index := by
  rw [args_pad] at h
  obtain rfl := Except.ok.inj h
  obtain ⟨⟨column, index⟩, hmem, heq⟩ := List.mem_filterMap.mp harg
  unfold Schema.arg? at heq
  dsimp only at heq
  split at heq
  · cases heq
  · obtain rfl := Option.some.inj heq
    exact ⟨index, hmem, rfl⟩

theorem key_of_mem_args_pad {schema : Schema} {cells : List String} {args : List Arg}
    (h : schema.args (schema.pad cells) = .ok args) {arg : Arg} (harg : arg ∈ args) :
    arg.key ∈ schema.columns ∧ arg.key ≠ "" := by
  obtain ⟨index, hmem, -⟩ := mem_args_pad h harg
  obtain ⟨hcolumn, hextra⟩ := List.mem_filter.mp hmem
  refine ⟨List.fst_mem_of_mem_zipIdx hcolumn, ?_⟩
  rintro hempty
  simp [hempty] at hextra

/-- The session is below a header with this schema, and has handles for the names of its columns. -/
def Keyed (schema : Schema) (s : Session) : Prop :=
  ∃ handles : Array Nat, s.schema = some { schema with keyHandles := handles }
    ∧ ∀ (index : Nat) (column : String), schema.columns[index]? = some column →
      ∃ handle, handles[index]? = some handle ∧ s.store.strings.text? handle = some column

/-- Handles of column names stand for their texts. -/
theorem readings_of_handles {schema : Schema} {handles : Array Nat} {pool : StringPool}
    (hhandles : ∀ (index : Nat) (column : String), schema.columns[index]? = some column →
      ∃ handle, handles[index]? = some handle ∧ pool.text? handle = some column)
    {cells : List String} {args : List Arg}
    (h : { schema with keyHandles := handles }.args (schema.pad cells) = .ok args) :
    (∀ arg ∈ args, arg.Known pool) ∧ args.map (Arg.reading pool) = carried args := by
  have hkeys : ∀ arg ∈ args, ∃ handle, arg.keyHandle = some handle
      ∧ pool.text? handle = some arg.key := by
    intro arg harg
    obtain ⟨index, hmem, hkey⟩ := mem_args_pad h harg
    obtain ⟨handle, hhandle, htext⟩ := hhandles index arg.key
      (List.mem_zipIdx_iff_getElem?.mp (List.mem_filter.mp hmem).1)
    exact ⟨handle, hkey.trans hhandle, htext⟩
  constructor
  · intro arg harg handle hhandle
    obtain ⟨other, hother, htext⟩ := hkeys arg harg
    rw [hhandle] at hother
    exact Option.some.inj hother ▸ StringPool.lt_of_text? htext
  · refine List.map_congr_left fun arg harg => ?_
    obtain ⟨handle, hhandle, htext⟩ := hkeys arg harg
    rw [Arg.reading, hhandle, Option.bind_some, htext, Option.getD_some]

/-! ## One more row -/

/-- The intervals of a row: its own, and that of the transaction that it ends. -/
def rowIntervals (bus : Reconstructor) (event : Event) (args : List Arg) (track : Nat) :
    List Interval :=
  Session.intervalOf event args track :: (bus.step event.busRow).1.toList.map fun t =>
    Session.transactionInterval bus.config.category t track

theorem onRow_eq {s s₁ : Session} {event : Event} {track : Nat} (args : List Arg)
    (htrack : s.trackFor event.analyzer = (track, s₁)) :
    s.onRow event args = { s₁ with
      store := (rowIntervals s₁.bus event args track).foldl Store.addInterval s₁.store
      rows := s₁.rows + 1
      transactions := s₁.transactions + (s₁.bus.step event.busRow).1.toList.length
      bus := (s₁.bus.step event.busRow).2 } := by
  have hconfig := s₁.bus.config_step event.busRow
  rcases onRow_cases args htrack with ⟨hended, heq⟩ | ⟨t, hended, heq⟩
  · rw [heq, stepBus_eq, rowIntervals, hended]
    rfl
  · rw [heq, stepBus_eq, rowIntervals, hended]
    dsimp only [Session.addTransaction, Session.addRow]
    rw [hconfig]
    rfl

theorem keyHandle_transaction {t : Bus.Transaction} {arg : Arg} (h : arg ∈ t.args) :
    arg.keyHandle = none := by
  unfold Bus.Transaction.args at h
  simp only [List.mem_append] at h
  rcases h with (h | h) | h <;> split at h
  all_goals first
    | exact absurd h List.not_mem_nil
    | rw [List.mem_singleton.mp h]

theorem rowIntervals_spec (bus : Reconstructor) (track : Nat) {pool : StringPool} {row : Entered}
    {args : List Arg} (hknown : ∀ arg ∈ args, arg.Known pool)
    (hargs : args.map (Arg.reading pool) = row.args) :
    (∀ interval ∈ rowIntervals bus row.event args track,
        interval.track = track ∧ interval.Known pool)
      ∧ (rowIntervals bus row.event args track).map
          (fun interval => (row.analyzer, interval.reading pool)) = rowLog bus row := by
  constructor
  · intro interval hinterval
    rcases List.mem_cons.mp hinterval with rfl | htransaction
    · exact ⟨rfl, hknown⟩
    · obtain ⟨t, -, rfl⟩ := List.mem_map.mp htransaction
      refine ⟨rfl, fun arg harg handle hhandle => ?_⟩
      rw [keyHandle_transaction harg] at hhandle
      cases hhandle
  · have hreading : (Session.intervalOf row.event args track).reading pool = row.reading := by
      rw [Interval.reading, Entered.reading, ← hargs]
      rfl
    rw [rowIntervals, List.map_cons, hreading, List.map_map]
    refine congrArg _ (List.map_congr_left fun t _ => congrArg (Prod.mk row.analyzer) ?_)
    have htexts : t.args.map (Arg.reading pool) = carried t.args := by
      refine List.map_congr_left fun arg harg => ?_
      rw [Arg.reading, keyHandle_transaction harg]
      rfl
    rw [transactionReading, ← htexts]
    rfl

/-- The bus has no record but of the analyzers it had and that of the row. -/
theorem mem_states_step {r : Reconstructor} {row : Bus.Row} {name : String}
    (h : name ∈ (r.step row).2.states.map (·.1)) :
    name ∈ r.states.map (·.1) ∨ name = row.analyzer := by
  unfold Reconstructor.step at h
  split at h
  · rw [Reconstructor.map_fst_setState] at h
    split at h
    · exact Or.inl h
    · exact (List.mem_append.mp h).imp_right List.mem_singleton.mp
  · exact Or.inl h

/-- A row is written down behind the others. -/
theorem Books.onRow {config : Config} {bus : Bus.Config} {rows : List Entered} {s : Session}
    (h : Books config bus rows s) {row : Entered} {args : List Arg}
    (hknown : ∀ arg ∈ args, arg.Known s.store.strings)
    (hargs : args.map (Arg.reading s.store.strings) = row.args)
    (hanalyzer : row.event.busRow.analyzer = row.analyzer)
    (hkeys : ∀ arg ∈ row.args, ∃ schema, s.schema = some schema
      ∧ arg.1 ∈ schema.columns ∧ arg.1 ≠ "" ∧ Text.trim arg.1 = arg.1) :
    Store.Calls s.store (s.onRow row.event args).store
      ∧ Books config bus (rows ++ [row]) (s.onRow row.event args) := by
  obtain ⟨id, store, trackIds, htrack, hid, hcalls, hslices, htracks, hids⟩ :=
    trackFor_enrols h.coherent (h.config_eq ▸ h.tracks) h.trackIds row.analyzer
  have hnames := prefix_enrol (analyzers rows) row.analyzer
  have hstore := hcalls.growsTo.strings
  have hold : Logged trackIds store (log { config := bus } rows) := by
    refine h.slices.mono (fun name known hname => ?_) hcalls.growsTo hslices
    obtain ⟨hlt, rfl⟩ := List.getElem?_eq_some_iff.mp ((h.trackIds name known).mp hname)
    exact (hids _ _).mpr (List.prefix_iff_getElem?.mp hnames known hlt)
  have hsame : args.map (Arg.reading store.strings) = row.args := by
    rw [← hargs]
    exact List.map_congr_left fun arg harg => (hknown arg harg).reading_eq hstore
  obtain ⟨hplaced, hreadings⟩ := rowIntervals_spec s.bus id
    (fun arg harg => (hknown arg harg).mono hstore) hsame
  obtain ⟨hadded, hkept, hsize, hlogged⟩ := hold.addIntervals hid hplaced
  have hcoherent := h.coherent.calls hcalls
  rw [onRow_eq args htrack]
  dsimp only
  refine ⟨hcalls.trans hadded, h.config_eq, hcoherent.calls hadded, ?_, ?_, ?_, ?_, ?_, ?_, ?_, ?_⟩
  · rw [List.length_append, List.length_singleton]
    exact congrArg (· + 1) h.count
  · have hcount := h.size
    rw [← hslices] at hcount
    dsimp only
    rw [hsize, hcount, rowIntervals, List.length_cons, List.length_map]
    omega
  · rw [analyzers_concat, ← h.config_eq, ← htracks]
    dsimp only
    exact hcoherent.trackRows_eq hadded.growsTo hkept
  · rw [analyzers_concat]
    exact hids
  · rw [log_concat, ← h.bus]
    rw [hreadings] at hlogged
    dsimp only
    exact hlogged
  · intro other hother
    rcases List.mem_append.mp hother with hmem | hmem
    · exact h.keys other hmem
    · exact List.mem_singleton.mp hmem ▸ hkeys
  · rw [List.map_append, List.map_singleton, Reconstructor.run_concat, ← h.bus]
  · intro name hname
    rw [analyzers_concat]
    rcases mem_states_step hname with hmem | rfl
    · exact hnames.subset (h.states name hmem)
    · rw [hanalyzer, enrol]
      split
      · assumption
      · exact List.mem_append_right _ List.mem_cons_self

/-! ## The header -/

/-- Texts that are interned have handles that stand for them. -/
theorem internAll_spec (store : Store) (texts : List String) :
    Store.Calls store (Schema.internAll store texts).2
      ∧ ∀ (index : Nat) (text : String), texts[index]? = some text →
        ∃ handle, (Schema.internAll store texts).1[index]? = some handle
          ∧ (Schema.internAll store texts).2.strings.text? handle = some text := by
  induction texts generalizing store with
  | nil => exact ⟨.none, fun index text htext => nomatch htext⟩
  | cons first texts ih =>
      obtain ⟨hcalls, htexts⟩ := ih (store.intern first).2
      refine ⟨(Store.Calls.none.intern first).trans hcalls, fun index text htext => ?_⟩
      cases index with
      | zero =>
          obtain rfl := Option.some.inj htext
          exact ⟨_, rfl, hcalls.growsTo.strings.text? (store.strings.text?_intern first)⟩
      | succ index => exact htexts index text htext

theorem keyed_setSchema (s : Session) (schema : Schema) : Keyed schema (s.setSchema schema) := by
  obtain ⟨-, htexts⟩ := internAll_spec s.store schema.columns
  refine ⟨_, rfl, fun index column hcolumn => ?_⟩
  obtain ⟨handle, hhandle, htext⟩ := htexts index column hcolumn
  exact ⟨handle, by rw [List.getElem?_toArray]; exact hhandle, htext⟩

theorem Books.setSchema {config : Config} {bus : Bus.Config} {s : Session}
    (h : Books config bus [] s) (schema : Schema) :
    Books config bus [] (s.setSchema schema) ∧ Keyed schema (s.setSchema schema) := by
  obtain ⟨hcalls, -⟩ := internAll_spec s.store schema.columns
  obtain ⟨htracks, -, hslices⟩ := internAll_frame s.store schema.columns
  refine ⟨⟨h.config_eq, h.coherent.calls hcalls, h.count, ?_, ?_, h.trackIds, ?_, ?_, h.bus,
    h.states⟩, keyed_setSchema s schema⟩
  · exact (congrArg Array.size hslices).trans h.size
  · exact (h.coherent.trackRows_eq hcalls.growsTo htracks).trans h.tracks
  · exact h.slices.mono (fun _ _ hsame => hsame) hcalls.growsTo hslices
  · exact fun row hrow => absurd hrow List.not_mem_nil

/-! ## All lines -/

/-- Below a header a row is read as what it says, or fails as it does by itself. -/
theorem Keyed.ofCells {schema : Schema} {s : Session} (h : Keyed schema s) (config : Config)
    (cells : List String) :
    ∃ known, s.schema = some known ∧ known.columns = schema.columns
      ∧ ((∃ failure, Entered.ofCells config schema cells = .error failure
          ∧ Entry.ofCells config known cells = .error failure)
        ∨ ∃ row args, Entered.ofCells config schema cells = .ok row
          ∧ Entry.ofCells config known cells = .ok (.row row.event args)
          ∧ (∀ arg ∈ args, arg.Known s.store.strings)
          ∧ args.map (Arg.reading s.store.strings) = row.args
          ∧ row.event.busRow.analyzer = row.analyzer
          ∧ ∀ arg ∈ row.args, arg.1 ∈ schema.columns ∧ arg.1 ≠ "") := by
  obtain ⟨handles, hschema, hhandles⟩ := h
  refine ⟨_, hschema, rfl, ?_⟩
  obtain ⟨args, hargs, hcells⟩ := Session.ofCells_eq config { schema with keyHandles := handles }
    cells
  change { schema with keyHandles := handles }.args (schema.pad cells) = .ok args at hargs
  change Entry.ofCells config { schema with keyHandles := handles } cells
    = (Event.ofRow config schema (schema.pad cells)).map (Entry.row · args) at hcells
  rw [hcells, Entered.ofCells_eq config hargs]
  obtain ⟨hknown, hreadings⟩ := readings_of_handles hhandles hargs
  cases hevent : Event.ofRow config schema (schema.pad cells) with
  | error failure => exact Or.inl ⟨failure, rfl, rfl⟩
  | ok event =>
      obtain ⟨-, hanalyzer, -⟩ := busRow_of_ofRow hevent
      refine Or.inr ⟨_, args, rfl, rfl, hknown, hreadings, hanalyzer, fun arg harg => ?_⟩
      obtain ⟨stored, hstored, rfl⟩ := List.mem_map.mp harg
      exact key_of_mem_args_pad hargs hstored

theorem Keyed.onRow {schema : Schema} {s : Session} (h : Keyed schema s) {event : Event}
    {args : List Arg} (hcalls : Store.Calls s.store (s.onRow event args).store) :
    Keyed schema (s.onRow event args) := by
  obtain ⟨handles, hschema, hhandles⟩ := h
  refine ⟨handles, (s.frame_onRow event args).2.trans hschema, fun index column hcolumn => ?_⟩
  obtain ⟨handle, hhandle, htext⟩ := hhandles index column hcolumn
  exact ⟨handle, hhandle, hcalls.growsTo.strings.text? htext⟩

/-- Below a header the rows that can be read are written down, up to the first that cannot. -/
theorem Books.readRows {config : Config} {bus : Bus.Config} {rows : List Entered} {s : Session}
    (h : Books config bus rows s) {schema : Schema} (hkeyed : Keyed schema s)
    (htrim : ∀ column ∈ schema.columns, Text.trim column = column) (lines : List (List String)) :
    ∃ s', s.readRecords lines = ((rowsUpTo config schema lines).1, s')
      ∧ Books config bus (rows ++ (rowsUpTo config schema lines).2) s' := by
  induction lines generalizing s rows with
  | nil => exact ⟨s, rfl, (List.append_nil rows).symm ▸ h⟩
  | cons cells lines ih =>
      obtain ⟨known, hschema, hcolumns, hcells⟩ := hkeyed.ofCells config cells
      rw [Session.readRecords_row hschema, h.config_eq, rowsUpTo]
      rcases hcells with ⟨failure, hfails, hentry⟩ |
        ⟨row, args, hreads, hentry, hknown, hargs, hanalyzer, hkeys⟩
      · rw [hfails, hentry]
        exact ⟨s, rfl, (List.append_nil rows).symm ▸ h⟩
      · obtain ⟨hcalls, hbooks⟩ := h.onRow hknown hargs hanalyzer fun arg harg =>
          ⟨known, hschema, hcolumns ▸ (hkeys arg harg).1, (hkeys arg harg).2,
            htrim _ (hkeys arg harg).1⟩
        obtain ⟨s', hread, hlater⟩ := ih hbooks (hkeyed.onRow hcalls)
        rw [← List.append_cons] at hlater
        rw [hreads, hentry]
        exact ⟨s', hread, hlater⟩

theorem books_start (config : Config) (bus : Bus.Config) :
    Books config bus [] { config, bus := { config := bus } } where
  config_eq := rfl
  coherent := Store.coherent_empty
  count := rfl
  size := rfl
  tracks := rfl
  trackIds name id := by simp [analyzers]
  slices := .nil
  keys row hrow := absurd hrow List.not_mem_nil
  bus := rfl
  states name hname := absurd hname List.not_mem_nil

/-- From an empty store the rows of an export are written down, up to the first that cannot be
read. -/
theorem books_entriesUpTo (config : Config) (bus : Bus.Config) (lines : List String) :
    ∃ s, Session.readAll { config, bus := { config := bus } } lines
        = ((entriesUpTo config lines).1, s)
      ∧ Books config bus (entriesUpTo config lines).2 s := by
  have hstart := books_start config bus
  rw [Session.readAll_eq, entriesUpTo]
  cases records lines with
  | nil => exact ⟨_, rfl, hstart⟩
  | cons header rows =>
      rw [Session.readRecords_header rfl]
      dsimp only
      cases hfields : Schema.ofFields header with
      | error failure => exact ⟨_, rfl, hstart⟩
      | ok schema =>
          obtain ⟨hbooks, hkeyed⟩ := hstart.setSchema schema
          exact hbooks.readRows hkeyed (fun _ hcolumn => trim_column hfields hcolumn) rows

theorem mapM_eq_rowsUpTo (config : Config) (schema : Schema) (lines : List (List String)) :
    lines.mapM (Entered.ofCells config schema) =
      match rowsUpTo config schema lines with
      | (none, rows) => .ok rows
      | (some failure, _) => .error failure := by
  induction lines with
  | nil => rfl
  | cons cells lines ih =>
      rw [List.mapM_cons, ih, rowsUpTo]
      cases Entered.ofCells config schema cells with
      | error failure => rfl
      | ok row =>
          dsimp only
          rcases rowsUpTo config schema lines with ⟨_ | failure, rows⟩ <;> rfl

theorem entries_eq_entriesUpTo (config : Config) (lines : List String) :
    entries config lines =
      match entriesUpTo config lines with
      | (none, rows) => .ok rows
      | (some failure, _) => .error failure := by
  rw [entries, entriesUpTo]
  cases records lines with
  | nil => rfl
  | cons header rows =>
      dsimp only
      cases Schema.ofFields header with
      | error failure => rfl
      | ok schema => exact mapM_eq_rowsUpTo config schema rows

/-- From an empty store the rows of an export are written down, if it can be read. -/
theorem books_readAll (config : Config) (bus : Bus.Config) (lines : List String) :
    (∃ failure s, entries config lines = .error failure
        ∧ Session.readAll { config, bus := { config := bus } } lines = (some failure, s))
      ∨ ∃ rows s, entries config lines = .ok rows
        ∧ Session.readAll { config, bus := { config := bus } } lines = (none, s)
        ∧ Books config bus rows s := by
  obtain ⟨s, hread, hbooks⟩ := books_entriesUpTo config bus lines
  rw [entries_eq_entriesUpTo]
  rcases hrows : entriesUpTo config lines with ⟨_ | failure, rows⟩
  · rw [hrows] at hread hbooks
    exact Or.inr ⟨rows, s, rfl, hread, hbooks⟩
  · rw [hrows] at hread
    exact Or.inl ⟨failure, s, rfl, hread⟩

end Csv

end LogicCapture
