import Mathlib
import LogicCapture.Proofs.Additions
import LogicCapture.Proofs.Ledger

/-!
# Importing into a store that holds something

What an import adds to a store does not depend on the store. A capture asks for its track and stores
samples on it, and whether its chunks can be decoded is decided by its octets alone. A row of an
export asks for the track of its analyzer and stores what the row says; the handles that a reader
keeps for the names of columns, and the tracks it remembers, are those of the store at hand and say
the same in each (`Below`). So every import, also one that fails, adds the same to all stores
(`adds_importWhole`), and leaves in a store that holds something, behind what it held, what it
leaves in an empty one (`import_beside`).
-/

namespace LogicCapture

open Trace (Additions Arg Store TrackKey)

/-! ## Captures -/

namespace Binary.Reader

theorem adds_addEvents (config : Config) (kind : DataKind) (events : List (Int × Float)) :
    ∃ added, ∀ s : Store, s.Coherent → s.Adds added (addEvents config kind s events) := by
  by_cases hempty : events.isEmpty = true
  · refine ⟨{}, fun s _ => ?_⟩
    rw [addEvents, if_pos hempty]
    exact s.adds_refl
  · let label : Trace.TrackLabel :=
      { kind := kind.trackKind, key := trackKey, name := config.trackName kind }
    refine ⟨Additions.append { tracks := [label] }
      { counters := events.map fun event => (label.trackKey, event) }, fun s hs => ?_⟩
    rw [addEvents, if_neg hempty]
    obtain ⟨htrack, hknown⟩ := hs.adds_internTrack kind.trackKind trackKey (config.trackName kind)
    exact htrack.trans (Store.adds_counters hknown events)

/-- How many chunks can be read is decided by the octets, and so is what they add. -/
theorem adds_readChunks (config : Config) (header : Header) (cursor : Cursor) (n : Nat) :
    ∃ failure added, ∀ s : Store, s.Coherent →
      (readChunks config header cursor s n).1 = failure
        ∧ s.Adds added (readChunks config header cursor s n).2 := by
  induction n generalizing cursor with
  | zero => exact ⟨none, {}, fun s _ => ⟨rfl, s.adds_refl⟩⟩
  | succ n ih =>
      cases hdecode : Chunk.decode header.container.version header.dataKind cursor with
      | error failure cursor' =>
          refine ⟨some failure, {}, fun s _ => ?_⟩
          rw [readChunks, hdecode]
          exact ⟨rfl, s.adds_refl⟩
      | ok chunk cursor' =>
          cases hevents : chunk.events with
          | error failure =>
              refine ⟨some failure, {}, fun s _ => ?_⟩
              rw [readChunks, hdecode]
              dsimp only
              rw [hevents]
              exact ⟨rfl, s.adds_refl⟩
          | ok events =>
              obtain ⟨first, hfirst⟩ := adds_addEvents config header.dataKind events
              obtain ⟨failure, rest, hrest⟩ := ih cursor'
              refine ⟨failure, first.append rest, fun s hs => ?_⟩
              obtain ⟨hfailure, hadds⟩ := hrest _ (hs.calls (hfirst s hs).calls)
              rw [readChunks, hdecode]
              dsimp only
              rw [hevents]
              exact ⟨hfailure, (hfirst s hs).trans hadds⟩

end Binary.Reader

/-! ## Exports -/

namespace Csv

open Bus (Reconstructor)

def rowAdditions (config : Config) (bus : Reconstructor) (row : Entered) : Additions where
  tracks := [{ kind := .csvSlice, key := row.analyzer, name := config.trackLead ++ row.analyzer }]
  intervals := (rowLog bus row).map fun (analyzer, reading) => ((.csvSlice, analyzer), reading)

/-- The session is below a header with this schema, the bus has come to this state, and the tracks
that are remembered are those of their analyzers. -/
structure Below (config : Config) (bus : Reconstructor) (schema : Schema) (s : Session) :
    Prop where
  config_eq : s.config = config
  bus_eq : s.bus = bus
  keyed : Keyed schema s
  coherent : s.store.Coherent
  remembered : ∀ (analyzer : String) (id : Nat), s.trackIds[analyzer]? = some id →
    s.store.findTrack? .csvSlice analyzer = some id

/-- To remember a track is to find it again. -/
theorem trackFor_eq {s : Session} (hcoherent : s.store.Coherent)
    (hremembered : ∀ (analyzer : String) (id : Nat), s.trackIds[analyzer]? = some id →
      s.store.findTrack? .csvSlice analyzer = some id) (analyzer : String) :
    let (track, store) :=
      s.store.internTrack .csvSlice analyzer (s.config.trackLead ++ analyzer)
    ∃ trackIds : Std.TreeMap String Nat,
      s.trackFor analyzer = (track, { s with store, trackIds })
        ∧ ∀ (other : String) (id : Nat), trackIds[other]? = some id →
          store.findTrack? .csvSlice other = some id := by
  have hfound := Binary.findTrack?_internTrack s.store .csvSlice analyzer
    (s.config.trackLead ++ analyzer)
  have hlater := hcoherent.internTrack .csvSlice analyzer (s.config.trackLead ++ analyzer)
  have hgrows := s.store.growsTo_internTrack .csvSlice analyzer (s.config.trackLead ++ analyzer)
  unfold Session.trackFor
  cases hknown : s.trackIds[analyzer]? with
  | some id =>
      rw [Binary.internTrack_of_findTrack? (hremembered analyzer id hknown)]
      exact ⟨s.trackIds, rfl, hremembered⟩
  | none =>
      dsimp only
      generalize s.store.internTrack .csvSlice analyzer (s.config.trackLead ++ analyzer) = interned
        at hfound hlater hgrows
      obtain ⟨track, store⟩ := interned
      exact ⟨_, rfl, forall_remembered_insert hfound fun other id hother =>
        hlater.findTrack?_mono hgrows (hremembered other id hother)⟩

/-- A row adds what it says, whatever the store holds. -/
theorem Below.onRow {config : Config} {bus : Reconstructor} {schema : Schema} {s : Session}
    (h : Below config bus schema s) {row : Entered} {args : List Arg}
    (hknown : ∀ arg ∈ args, arg.Known s.store.strings)
    (hargs : args.map (Arg.reading s.store.strings) = row.args) :
    s.store.Adds (rowAdditions config bus row) (s.onRow row.event args).store
      ∧ Below config (bus.step row.event.busRow).2 schema (s.onRow row.event args) := by
  obtain ⟨htrack, hkey⟩ := h.coherent.adds_internTrack .csvSlice row.event.analyzer
    (s.config.trackLead ++ row.event.analyzer)
  have hfor := trackFor_eq h.coherent h.remembered row.event.analyzer
  generalize s.store.internTrack .csvSlice row.event.analyzer
    (s.config.trackLead ++ row.event.analyzer) = interned at htrack hkey hfor
  obtain ⟨track, store⟩ := interned
  obtain ⟨trackIds, hfor, hremembered⟩ := hfor
  have hgrows := htrack.calls.growsTo.strings
  have hcoherent := h.coherent.calls htrack.calls
  have hsame : args.map (Arg.reading store.strings) = row.args := by
    rw [← hargs]
    exact List.map_congr_left fun arg harg => (hknown arg harg).reading_eq hgrows
  obtain ⟨hplaced, hreadings⟩ := rowIntervals_spec bus track
    (fun arg harg => (hknown arg harg).mono hgrows) hsame
  have hintervals := hcoherent.adds_intervals hkey hplaced
  have hstore : (s.onRow row.event args).store
      = (rowIntervals bus row.event args track).foldl Store.addInterval store := by
    rw [onRow_eq args hfor]
    dsimp only
    rw [h.bus_eq]
  have hadds := htrack.trans hintervals
  rw [← hstore] at hadds hintervals
  have hcalls := hadds.calls
  refine ⟨?_, (s.frame_onRow _ _).1.trans h.config_eq, ?_, h.keyed.onRow hcalls,
    h.coherent.calls hcalls, ?_⟩
  · rw [rowAdditions, ← hreadings, List.map_map, ← h.config_eq]
    exact hadds
  · rw [onRow_eq args hfor]
    dsimp only
    rw [h.bus_eq]
  · intro analyzer id hid
    rw [onRow_eq args hfor] at hid
    exact (h.coherent.calls hcalls).findTrack?_mono hintervals.calls.growsTo
      (hremembered analyzer id hid)

/-- Below a header the rows add the same to all stores, up to the first that cannot be read. -/
theorem adds_readRows (config : Config) (bus : Reconstructor) (schema : Schema)
    (lines : List (List String)) :
    ∃ failure added, ∀ s, Below config bus schema s →
      (s.readRecords lines).1 = failure ∧ s.store.Adds added (s.readRecords lines).2.store := by
  induction lines generalizing bus with
  | nil => exact ⟨none, {}, fun s _ => ⟨rfl, s.store.adds_refl⟩⟩
  | cons cells lines ih =>
      cases hentered : Entered.ofCells config schema cells with
      | error failure =>
          refine ⟨some failure, {}, fun s hs => ?_⟩
          obtain ⟨known, hschema, -, ⟨_, hfails, hentry⟩ | ⟨row, _, hreads, -⟩⟩ :=
            hs.keyed.ofCells config cells
          · obtain rfl := Except.error.inj (hentered.symm.trans hfails)
            rw [Session.readRecords_row hschema, hs.config_eq, hentry]
            exact ⟨rfl, s.store.adds_refl⟩
          · cases hentered.symm.trans hreads
      | ok row =>
          obtain ⟨failure, rest, hrest⟩ := ih (bus.step row.event.busRow).2
          refine ⟨failure, (rowAdditions config bus row).append rest, fun s hs => ?_⟩
          obtain ⟨known, hschema, -,
            ⟨_, hfails, -⟩ | ⟨_, args, hreads, hentry, hknown, hargs, -⟩⟩ :=
            hs.keyed.ofCells config cells
          · cases hentered.symm.trans hfails
          · obtain rfl := Except.ok.inj (hentered.symm.trans hreads)
            obtain ⟨hadds, hbelow⟩ := hs.onRow hknown hargs
            obtain ⟨hfailure, hmore⟩ := hrest _ hbelow
            rw [Session.readRecords_row hschema, hs.config_eq, hentry]
            exact ⟨hfailure, hadds.trans hmore⟩

theorem adds_internAll {store : Store} (h : store.Coherent) (texts : List String) :
    store.Adds {} (Schema.internAll store texts).2 := by
  induction texts generalizing store with
  | nil => exact store.adds_refl
  | cons text texts ih =>
      have hfirst := h.adds_intern text
      exact hfirst.trans (ih (h.calls hfirst.calls))

theorem below_setSchema (config : Config) (bus : Reconstructor) {store : Store}
    (h : store.Coherent) (schema : Schema) :
    Below config bus schema (Session.setSchema { config, bus, store } schema) where
  config_eq := rfl
  bus_eq := rfl
  keyed := keyed_setSchema _ schema
  coherent := h.calls (adds_internAll h schema.columns).calls
  remembered analyzer id hid := by simp [Session.setSchema] at hid

/-- The lines of an export add the same to all stores. -/
theorem adds_readAll (config : Config) (bus : Bus.Config) (lines : List String) :
    ∃ failure added, ∀ store : Store, store.Coherent →
      (Session.readAll { config, bus := { config := bus }, store } lines).1 = failure
        ∧ store.Adds added
          (Session.readAll { config, bus := { config := bus }, store } lines).2.store := by
  simp only [Session.readAll_eq]
  cases records lines with
  | nil => exact ⟨none, {}, fun store _ => ⟨rfl, store.adds_refl⟩⟩
  | cons header rows =>
      simp only [Session.readRecords_header]
      cases Schema.ofFields header with
      | error failure => exact ⟨some failure, {}, fun store _ => ⟨rfl, store.adds_refl⟩⟩
      | ok schema =>
          obtain ⟨failure, added, hrows⟩ := adds_readRows config { config := bus } schema rows
          refine ⟨failure, added, fun store hstore => ?_⟩
          obtain ⟨hfailure, hadds⟩ := hrows _ (below_setSchema config _ hstore schema)
          exact ⟨hfailure, (adds_internAll hstore schema.columns).trans hadds⟩

end Csv

/-! ## Imports -/

namespace Import

theorem adds_binary (config : Binary.Config) (buffer : Array UInt8) :
    ∃ failure added, ∀ s : Store, s.Coherent →
      (Result.ofRun Reader.finish (.binary { config, buffer, store := s })).failure = failure
        ∧ s.Adds added
          (Result.ofRun Reader.finish (.binary { config, buffer, store := s })).store := by
  dsimp only [Result.ofRun, Reader.finish, Reader.either, Binary.Reader.finish]
  by_cases hempty : buffer.isEmpty = true
  · simp only [if_pos hempty]
    exact ⟨some .emptyBinary, {}, fun s _ => ⟨rfl, s.adds_refl⟩⟩
  · simp only [if_neg hempty]
    cases Binary.Header.decode { data := buffer } with
    | error failure cursor => exact ⟨some failure, {}, fun s _ => ⟨rfl, s.adds_refl⟩⟩
    | ok header cursor =>
        obtain ⟨failure, added, hchunks⟩ :=
          Binary.Reader.adds_readChunks config header cursor header.chunkCount
        refine ⟨failure, added, fun s hs => ?_⟩
        have hread := hchunks s hs
        dsimp only
        rcases heq : Binary.Reader.readChunks config header cursor s header.chunkCount with
          ⟨_ | failure', store⟩
        · rw [heq] at hread
          exact hread
        · rw [heq] at hread
          exact hread

/-- Every import adds the same to all stores and ends in the same way. -/
theorem adds_importWhole (config : Config) (source : Option String) (data : List UInt8) :
    ∃ failure added, ∀ s : Store, s.Coherent →
      (importWhole config source s data).failure = failure
        ∧ s.Adds added (importWhole config source s data).store := by
  cases hformat : resolve config (data.take headSize) source with
  | error failure =>
      refine ⟨some failure, {}, fun s _ => ?_⟩
      rw [importWhole_error (openReader_error hformat s)]
      exact ⟨rfl, s.adds_refl⟩
  | ok format =>
      cases format with
      | binary =>
          simp only [importWhole_binary hformat]
          exact adds_binary config.binary data.toArray
      | csv =>
          cases hlines : Csv.Reader.linesIn config.csv.encoding with
          | error failure =>
              refine ⟨some failure, {}, fun s _ => ?_⟩
              rw [importWhole_error (openReader_csv_error hformat hlines s)]
              exact ⟨rfl, s.adds_refl⟩
          | ok lines =>
              -- the refusal of a line does not depend on the store
              obtain ⟨failure, added, hread⟩ := Csv.adds_readAll config.csv {}
                (Csv.texts ((Text.allLines data).map lines.codec.decode))
              refine ⟨failure.or (Csv.refusal? ((Text.allLines data).map lines.codec.decode)),
                added, fun s hs => ?_⟩
              rw [importWhole_csv hformat hlines]
              obtain ⟨hfailure, hadds⟩ := hread s hs
              exact ⟨congrArg (Option.or · _) hfailure, hadds⟩

/-- Importing into a store that holds something only adds to it, and it adds the same as to an empty
store. The import ends in the same way, with the same failure if it fails. What was there stays
where it was; behind it come the tracks that were missing, and the samples, intervals and arguments
that the import leaves in an empty store, on the tracks of the same kinds and keys. -/
theorem import_beside {s : Store} (hs : Store.Calls {} s) {config : Config}
    (hsize : 1 ≤ config.pieceSize) (source : Option String) (data : List UInt8) :
    (importBytes config source s data).failure = (importBytes config source {} data).failure
      ∧ s.Beside (importBytes config source s data).store
        (importBytes config source {} data).store := by
  have hcoherent := Store.coherent_empty.calls hs
  obtain ⟨failure, added, hadds⟩ := adds_importWhole config source data
  obtain ⟨hfailure, hlater⟩ := hadds s hcoherent
  obtain ⟨hfailure', hfresh⟩ := hadds {} Store.coherent_empty
  rw [importBytes_eq_importWhole hsize, importBytes_eq_importWhole hsize]
  exact ⟨hfailure.trans hfailure'.symm, hlater.beside hcoherent hfresh⟩

/-- A store with a track of an analyzer under another name, and with a sample whose number has no
track yet. -/
def heldStore : Store :=
  (((Store.intern {} "note").2.internTrack .csvSlice "A" "old").2).addCounter
    { ts := 1, value := 0, track := 1 }

def twoAnalyzers : List UInt8 :=
  plainOctets "name,type,start_time,duration,note\nA,b,1,0,x\nB,b,2,0,\n"

theorem import_beside_twoAnalyzers :
    Store.Calls {} heldStore
      ∧ heldStore.Beside (importBytes {} none heldStore twoAnalyzers).store
        (importBytes {} none {} twoAnalyzers).store
      ∧ (importBytes {} none heldStore twoAnalyzers).store.labels.map (fun l => (l.key, l.name))
        = [("A", "old"), ("B", "Saleae CSV: B")]
      ∧ (importBytes {} none {} twoAnalyzers).store.labels.map (fun l => (l.key, l.name))
        = [("A", "Saleae CSV: A"), ("B", "Saleae CSV: B")] := by
  have hsize : (1 : Int) ≤ ({} : Config).pieceSize := by decide
  have hheld : Store.Calls {} heldStore :=
    ((Store.Calls.none.intern "note").track .csvSlice "A" "old").counter _
  refine ⟨hheld, (import_beside hheld hsize none twoAnalyzers).2, ?_, ?_⟩
  · decide +kernel
  · decide +kernel

end Import

end LogicCapture
