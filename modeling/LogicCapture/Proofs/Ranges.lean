import Mathlib
import LogicCapture.Trace.Rows
import LogicCapture.Proofs.Intervals
import LogicCapture.Proofs.Leading

/-!
# What is stored fits its columns

Every time that an import converts fits a signed 64-bit word, and so do the times of counters and of
the intervals of rows. The duration of a transaction is no converted time but the distance between
two of them, with a third added: where a segment of an analyzer takes longer than a word can say, an
interval is stored that its column cannot hold, and there is no table of intervals. Otherwise both
tables can be built (`import_ranges`).
-/

namespace LogicCapture

/-! ## Steps of a reader -/

namespace Csv

namespace Reader

theorem outcome_readLines (lines : Text.LineReader) (s : Session) :
    ∃ read, outcome (readLines lines s) = s.readDecoded read := by
  fun_induction readLines lines s with
  | case1 lines s left hnext => exact ⟨[], rfl⟩
  | case2 lines s line left hnext s₁ hline ih =>
      obtain ⟨read, hread⟩ := ih
      exact ⟨line :: read, by rw [hread, Session.readDecoded, hline]⟩
  | case3 lines s line left hnext failure s₁ hline =>
      exact ⟨[line], by rw [Session.readDecoded, hline]; rfl⟩

end Reader

theorem Filled.exists_readDecoded {s : Session} {rows : List Bus.Row} (h : Filled s rows)
    (lines : List Text.Decoded) : ∃ rows', Filled (s.readDecoded lines).2 rows' := by
  rw [Session.readDecoded_eq]
  exact h.exists_readAll _

end Csv

/-! ## Tables -/

namespace Trace

/-- What is stored of these rows fits the columns, but for the durations of transactions. -/
structure InRange (store : Store) (rows : List Bus.Row) : Prop where
  counter_ts : ∀ counter ∈ store.counters, fitsWord64 counter.ts = true
  counterFrame : ∃ frame, store.counterFrame = .ok frame
  row_times : ∀ row ∈ rows, Csv.Fits row
  slice_times : store.slices.toList.map (fun slice => (slice.ts, slice.dur)) = Csv.sliceTimes rows
  slice_ts : ∀ slice ∈ store.slices, fitsWord64 slice.ts = true
  slice_dur : (∀ slice ∈ store.slices, fitsWord64 slice.dur = true) ↔ ¬Csv.Overspans rows
  sliceFrame : (∃ frame, store.sliceFrame = .ok frame) ↔
    store.slices.size ≤ 0x8000000000000000 ∧ ¬Csv.Overspans rows

theorem frameOf_eq_ok_iff {α : Type} {numbers : α → List Int} {rows : List α} :
    (∃ frame, Store.frameOf numbers rows = .ok frame) ↔
      ∀ row ∈ rows, ∀ n ∈ numbers row, fitsWord64 n = true := by
  unfold Store.frameOf
  split
  · next hnone =>
    rw [List.find?_eq_none] at hnone
    constructor
    · intro _ row hrow n hn
      simpa using hnone n (List.mem_flatMap.mpr ⟨row, hrow, hn⟩)
    · exact fun _ => ⟨rows, rfl⟩
  · next n hsome =>
    have hn := List.find?_some hsome
    obtain ⟨row, hrow, hmem⟩ := List.mem_flatMap.mp (List.mem_of_find?_eq_some hsome)
    constructor
    · rintro ⟨frame, hframe⟩
      cases hframe
    · intro hall
      rw [hall row hrow n hmem] at hn
      cases hn

theorem mem_sliceRows {store : Store} {row : SliceRow} :
    row ∈ store.sliceRows ↔ ∃ (i : Nat) (hi : i < store.slices.size),
      row = { id := i, ts := store.slices[i].ts, dur := store.slices[i].dur
              track := store.slices[i].track
              category := store.slices[i].category.map store.resolve
              name := store.resolve store.slices[i].name } := by
  rw [Store.sliceRows, List.mem_map]
  constructor
  · rintro ⟨⟨slice, i⟩, hmem, rfl⟩
    rw [List.mem_zipIdx_iff_getElem?, Array.getElem?_toList, Array.getElem?_eq_some_iff] at hmem
    obtain ⟨hi, hslice⟩ := hmem
    dsimp only at hi hslice
    subst hslice
    exact ⟨i, hi, rfl⟩
  · rintro ⟨i, hi, rfl⟩
    refine ⟨(store.slices[i], i), ?_, rfl⟩
    rw [List.mem_zipIdx_iff_getElem?, Array.getElem?_toList, Array.getElem?_eq_getElem hi]

/-- The table of intervals can be built if all their numbers are words. -/
theorem sliceFrame_iff {store : Store}
    (htracks : ∀ slice ∈ store.slices, 0 ≤ slice.track ∧ slice.track < store.slices.size) :
    (∃ frame, store.sliceFrame = .ok frame) ↔ store.slices.size ≤ 0x8000000000000000
      ∧ ∀ slice ∈ store.slices, fitsWord64 slice.ts = true ∧ fitsWord64 slice.dur = true := by
  rw [Store.sliceFrame, frameOf_eq_ok_iff]
  constructor
  · intro hall
    refine ⟨?_, fun slice hslice => ?_⟩
    · by_contra hmany
      have hid := hall _ (mem_sliceRows.mpr ⟨_, Nat.lt_of_not_le hmany, rfl⟩) _ List.mem_cons_self
      rw [fitsWord64_iff] at hid
      dsimp only at hid
      omega
    · obtain ⟨i, hi, rfl⟩ := Array.mem_iff_getElem.mp hslice
      have hfits := hall _ (mem_sliceRows.mpr ⟨i, hi, rfl⟩)
      exact ⟨hfits _ (by simp), hfits _ (by simp)⟩
  · rintro ⟨hsize, hall⟩ row hrow n hn
    obtain ⟨i, hi, rfl⟩ := mem_sliceRows.mp hrow
    obtain ⟨hts, hdur⟩ := hall _ (Array.getElem_mem hi)
    obtain ⟨hnonneg, hlt⟩ := htracks _ (Array.getElem_mem hi)
    simp only [List.mem_cons, List.not_mem_nil, or_false] at hn
    rcases hn with rfl | rfl | rfl | rfl
    · rw [fitsWord64_iff]
      omega
    · exact hts
    · exact hdur
    · rw [fitsWord64_iff]
      omega

theorem counterFrame_iff {store : Store} :
    (∃ frame, store.counterFrame = .ok frame) ↔ ∀ counter ∈ store.counters,
      fitsWord64 counter.ts = true ∧ fitsWord64 counter.track = true := by
  rw [Store.counterFrame, frameOf_eq_ok_iff]
  simp

/-- What rows leave is in range. -/
theorem InRange.of_filled {s : Csv.Session} {rows : List Bus.Row} (h : Csv.Filled s rows) :
    InRange s.store rows := by
  have hts : ∀ slice ∈ s.store.slices, fitsWord64 slice.ts = true := by
    intro slice hslice
    have htimes := List.mem_map_of_mem (f := fun slice : Slice => (slice.ts, slice.dur))
      (Array.mem_toList_iff.mpr hslice)
    rw [h.times] at htimes
    exact Csv.fits_sliceTimes_start h.fits _ htimes
  have hdur : (∀ slice ∈ s.store.slices, fitsWord64 slice.dur = true) ↔ ¬Csv.Overspans rows := by
    rw [← Csv.fits_sliceTimes_duration_iff h.fits, ← h.times]
    simp
  refine ⟨?_, ?_, h.fits, h.times, hts, hdur, ?_⟩
  · simp [h.counters]
  · simp [counterFrame_iff, h.counters]
  · rw [sliceFrame_iff fun slice hslice => ?_, ← hdur]
    · exact and_congr_right fun _ => ⟨fun hall slice hslice => (hall slice hslice).2,
        fun hall slice hslice => ⟨hts slice hslice, hall slice hslice⟩⟩
    · obtain ⟨hnonneg, hlt⟩ := h.track_lt slice hslice
      have := h.tracks_le
      omega

/-- So are the moments of a capture. -/
theorem InRange.of_stored {config : Binary.Config} {kind : Binary.DataKind}
    {moments : List Binary.Moment} {store : Store}
    (h : Binary.Stored config kind moments store) : InRange store [] := by
  have hcounters : ∀ counter ∈ store.counters,
      fitsWord64 counter.ts = true ∧ fitsWord64 counter.track = true := by
    intro counter hcounter
    obtain ⟨i, hi, rfl⟩ := Array.mem_iff_getElem.mp hcounter
    have hmoment : i < moments.length := by
      rw [h.counters.length_eq]
      exact hi
    obtain ⟨hts, -, htrack⟩ := h.counters.get hmoment hi
    refine ⟨Time.fitsWord64_of_ofSeconds hts, ?_⟩
    change store.counters[i].track = 0 at htrack
    rw [htrack]
    rfl
  have hspan : ¬Csv.Overspans [] := by
    rintro ⟨a, -, segment, hsegment, -⟩
    exact absurd (Bus.mem_of_mem_segments hsegment).1 List.not_mem_nil
  refine ⟨fun counter hcounter => (hcounters counter hcounter).1, counterFrame_iff.mpr hcounters,
    fun row hrow => absurd hrow List.not_mem_nil, ?_, ?_, ?_, ?_⟩
  · rw [h.slices]
    rfl
  · simp [h.slices]
  · simp [h.slices, hspan]
  · rw [sliceFrame_iff]
    · simp [h.slices, hspan]
    · simp [h.slices]

end Trace

namespace Import

open Files (Entry Path)
open Trace (InRange Store)

/-! ## Any import -/

namespace Reader

/-- The reader began with an empty store and is not done: it has only collected octets, or it has
read rows. -/
def Underway : Reader → Prop
  | binary reader => reader = { config := reader.config, buffer := reader.buffer }
  | csv reader => ∃ rows, Csv.Filled reader.session rows

theorem preserves_push (bytes : List UInt8) : Preserves Underway (push bytes) := by
  intro reader h
  cases reader with
  | binary reader =>
      change reader = _ at h
      rw [h]
      rfl
  | csv reader =>
      obtain ⟨rows, hfilled⟩ := h
      obtain ⟨read, hread⟩ :=
        Csv.Reader.outcome_readLines (reader.lines.push bytes) reader.session
      rw [push, ending_either_csv]
      change ∃ rows, Csv.Filled (Csv.Reader.outcome (Csv.Reader.push bytes reader)).2 rows
      rw [Csv.Reader.push, hread]
      exact hfilled.exists_readDecoded read

theorem inRange_empty : InRange {} [] :=
  .of_stored (@Binary.stored_addEvents {} .digital [] [] rfl)

theorem Underway.inRange {reader : Reader} (h : reader.Underway) :
    ∃ rows, InRange reader.store rows := by
  cases reader with
  | binary reader =>
      change reader = _ at h
      rw [h]
      exact ⟨[], inRange_empty⟩
  | csv reader =>
      obtain ⟨rows, hfilled⟩ := h
      exact ⟨rows, .of_filled hfilled⟩

theorem Underway.inRange_finish {reader : Reader} (h : reader.Underway) :
    ∃ rows, InRange (ending (finish reader)).2.store rows := by
  cases reader with
  | binary reader =>
      change reader = _ at h
      obtain ⟨kind, moments, hstored⟩ :=
        Binary.exists_stored_finish reader.config reader.buffer.toList
      change Binary.Stored reader.config kind moments (ending
        (Binary.Reader.finish { config := reader.config, buffer := reader.buffer })).2.store
        at hstored
      rw [← h] at hstored
      rw [finish, ending_either_binary]
      exact ⟨[], .of_stored hstored⟩
  | csv reader =>
      obtain ⟨rows, hfilled⟩ := h
      rw [finish, ending_either_csv]
      change ∃ rows, InRange (Csv.Reader.outcome (Csv.Reader.finish reader)).2.store rows
      rw [Csv.Reader.outcome_finish_left]
      obtain ⟨rows', hleft⟩ := hfilled.exists_readDecoded _
      exact ⟨rows', .of_filled hleft⟩

end Reader

theorem underway_of_openReader {config : Config} {source : Option String} {data : List UInt8}
    {reader : Reader} (h : openReader config source {} data = .ok reader) : reader.Underway := by
  obtain ⟨-, rfl⟩ | ⟨-, known, rfl⟩ := openReader_cases h
  · rfl
  · exact ⟨[], Csv.filled_start config.csv⟩

/-- However the octets are fed, what is stored is in range of some rows. -/
theorem exists_inRange_importWith (config : Config) (source : Option String) (data : List UInt8)
    {feed : EStateM Failure Reader Unit} (hfeed : Reader.Preserves Reader.Underway feed) :
    ∃ rows, InRange (importWith config source {} data feed).store rows :=
  store_importWith (Q := fun store => ∃ rows, InRange store rows) ⟨[], Reader.inRange_empty⟩
    (fun _ => underway_of_openReader) hfeed fun _ h => ⟨h.inRange, h.inRange_finish⟩

theorem keeps_feedBytes (config : Config) (data : List UInt8) :
    Reader.Preserves Reader.Underway (feedBytes config data) :=
  Reader.preserves_feedBytes Reader.preserves_push config data

theorem keeps_feedFile (memory : Nat → Bool) (config : Config) (data : List UInt8) :
    Reader.Preserves Reader.Underway (feedFile memory config data) :=
  Reader.preserves_feedFile Reader.preserves_push memory config data

/-! ## Imports in pieces that can be read -/

/-- The rows that an import of these octets comes to. -/
def importRows (config : Config) (source : Option String) (data : List UInt8) : List Bus.Row :=
  Csv.exportRows config.csv (Csv.texts (importLines config source data))

theorem inRange_importWhole (config : Config) (source : Option String) (data : List UInt8) :
    InRange (importWhole config source {} data).store (importRows config source data) := by
  cases hformat : resolve config (data.take headSize) source with
  | error failure =>
      rw [importWhole_error (openReader_error hformat {}), importRows, importLines, hformat]
      exact Reader.inRange_empty
  | ok format =>
      cases format with
      | binary =>
          obtain ⟨kind, moments, hstored⟩ := Binary.exists_stored_finish config.binary data
          rw [importWhole_binary hformat, Reader.store_ofRun, Reader.finish,
            Reader.ending_either_binary, importRows, importLines, hformat]
          exact .of_stored hstored
      | csv =>
          cases hlines : Csv.Reader.linesIn config.csv.encoding with
          | error failure =>
              rw [importWhole_error (openReader_csv_error hformat hlines {}), importRows,
                importLines, hformat, hlines]
              exact Reader.inRange_empty
          | ok lines =>
              rw [importWhole_csv hformat hlines, importRows, importLines, hformat, hlines]
              exact .of_filled ((Csv.filled_start config.csv).readAll_export rfl _)

/-- Whatever is imported into an empty store, in pieces of any size and whether or not it fails, is
in range, of the rows of an export if the pieces are of a size that can be read. So the table of
counters can always be built, and that of intervals unless a segment takes too long. -/
theorem import_ranges (config : Config) (source : Option String) (path : Path)
    (data : List UInt8) :
    (∃ rows, InRange (importBytes config source {} data).store rows
        ∧ (1 ≤ config.pieceSize → rows = importRows config source data))
      ∧ ∀ (memory : Nat → Bool) (entry : Entry), ∃ rows,
        InRange (importFile memory config path entry {}).store rows
          ∧ (entry = .file data → 1 ≤ config.pieceSize →
            sizeFailure? memory config.pieceSize = none →
              rows = importRows config (some path.name) data) := by
  constructor
  · by_cases hsize : 1 ≤ config.pieceSize
    · refine ⟨_, ?_, fun _ => rfl⟩
      rw [importBytes_eq_importWhole hsize]
      exact inRange_importWhole config source data
    · obtain ⟨rows, hrange⟩ :=
        exists_inRange_importWith config source data (keeps_feedBytes config data)
      exact ⟨rows, hrange, fun h => absurd h hsize⟩
  · intro memory entry
    by_cases hwhole : entry = .file data ∧ 1 ≤ config.pieceSize
      ∧ sizeFailure? memory config.pieceSize = none
    · obtain ⟨rfl, hsize, hread⟩ := hwhole
      refine ⟨_, ?_, fun _ _ _ => rfl⟩
      rw [importFile_eq_importWhole hsize hread]
      exact inRange_importWhole config (some path.name) data
    · have hodd : ∀ rows, entry = .file data → 1 ≤ config.pieceSize →
          sizeFailure? memory config.pieceSize = none →
            rows = importRows config (some path.name) data :=
        fun _ hfile hsize hread => absurd ⟨hfile, hsize, hread⟩ hwhole
      cases entry with
      | missing => exact ⟨[], Reader.inRange_empty, hodd []⟩
      | directory => exact ⟨[], Reader.inRange_empty, hodd []⟩
      | refused => exact ⟨[], Reader.inRange_empty, hodd []⟩
      | file content =>
          obtain ⟨rows, hrange⟩ := exists_inRange_importWith config (some path.name) content
            (keeps_feedFile memory config content)
          exact ⟨rows, hrange, hodd rows⟩

/-- A start and a stop that are both in range and five hundred years apart. -/
def longExport : List UInt8 :=
  plainOctets "name,type,start_time,duration\nI2C,start,-9e9,0\nI2C,stop,9e9,0\n"

/-- The transaction of the long export has no duration that fits, so its intervals have no table. -/
theorem importBytes_longExport :
    (∃ slice ∈ (importBytes { request := .format "csv" } none {} longExport).store.slices,
        fitsWord64 slice.dur = false)
      ∧ ¬∃ frame, (importBytes { request := .format "csv" } none {} longExport).store.sliceFrame
        = .ok frame := by
  constructor
  · have hany : (importBytes { request := .format "csv" } none {} longExport).store.slices.any
        (fun slice => !fitsWord64 slice.dur) = true := by decide +kernel
    obtain ⟨i, hi, hdur⟩ := Array.any_eq_true.mp hany
    exact ⟨_, Array.getElem_mem hi, by simpa using hdur⟩
  · rintro ⟨frame, hframe⟩
    have hnone :
        (importBytes { request := .format "csv" } none {} longExport).store.sliceFrame.toOption
          = none := by
      decide +kernel
    rw [hframe] at hnone
    cases hnone

end Import

end LogicCapture
