import Mathlib
import LogicCapture.Proofs.Feeding
import LogicCapture.Proofs.Ledger

/-!
# Analyzers do not meet

Rows of all analyzers share one pool of texts, one table of tracks and one table of intervals, and
the bus keeps its states in one list. None of this can be told from the intervals of one analyzer
when they are read with their handles resolved: a row changes no state but that of its own analyzer,
so the part of the log that belongs to an analyzer is the log of its rows alone (`log_filter`). An
export and its rows of one analyzer under the same header therefore give that analyzer the same
intervals, and so do any two exports with the same rows for each analyzer (`analyzers_apart`).
-/

namespace LogicCapture

open Bus (Reconstructor)
open Trace (Reading Store TrackKind)

namespace Trace.Store

/-- What the intervals say that are on the track of a kind and a key, in order. -/
def readingsOn (s : Store) (kind : TrackKind) (key : String) : List Reading :=
  (s.slices.toList.filter fun slice =>
    (s.findTrack? kind key).map Int.ofNat == some slice.track).map s.readingOf

end Trace.Store

namespace Csv

/-! ## One analyzer of a log -/

/-- A row of an analyzer does to it the same whatever others have done. -/
theorem step_own {r r' : Reconstructor} (hconfig : r'.config = r.config) {row : Bus.Row}
    (hstate : r'.stateOf row.analyzer = r.stateOf row.analyzer) :
    (r'.step row).1 = (r.step row).1
      ∧ (r'.step row).2.stateOf row.analyzer = (r.step row).2.stateOf row.analyzer := by
  by_cases hbus : Reconstructor.isBusAnalyzer r.config row.analyzer = true
  · obtain ⟨hended, hlater⟩ := Reconstructor.step_of_own hbus rfl
    obtain ⟨hended', hlater'⟩ := Reconstructor.step_of_own (r := r') (hconfig ▸ hbus) rfl
    rw [hended, hended', hlater, hlater', hconfig, hstate]
    exact ⟨rfl, rfl⟩
  · rw [Reconstructor.step, Reconstructor.step, hconfig, if_neg hbus, if_neg hbus]
    exact ⟨rfl, hstate⟩

theorem fst_of_mem_rowLog {r : Reconstructor} {row : Entered} {entry : String × Reading}
    (h : entry ∈ rowLog r row) : entry.1 = row.analyzer := by
  rcases List.mem_cons.mp h with rfl | hended
  · rfl
  · obtain ⟨t, -, rfl⟩ := List.mem_map.mp hended
    rfl

/-- The part of a log that belongs to an analyzer is the log of its rows. -/
theorem log_filter (a : String) {r r' : Reconstructor} (hconfig : r'.config = r.config)
    (hstate : r'.stateOf a = r.stateOf a) {rows : List Entered}
    (hrows : ∀ row ∈ rows, row.event.busRow.analyzer = row.analyzer) :
    (log r rows).filter (·.1 == a) = log r' (rows.filter (·.analyzer == a)) := by
  induction rows generalizing r r' with
  | nil => rfl
  | cons row rows ih =>
      obtain ⟨hrow, hrest⟩ := List.forall_mem_cons.mp hrows
      have hlater := r.config_step row.event.busRow
      rw [log, List.filter_append]
      by_cases hown : row.analyzer = a
      · subst hown
        rw [← hrow] at hstate
        obtain ⟨hended, hnext⟩ := step_own hconfig hstate
        rw [hrow] at hnext
        have hsame : rowLog r' row = rowLog r row := by
          rw [rowLog, rowLog, hended, hconfig]
        have hall : (rowLog r row).filter (·.1 == row.analyzer) = rowLog r row :=
          List.filter_eq_self.mpr fun entry hentry => by simpa using fst_of_mem_rowLog hentry
        rw [List.filter_cons_of_pos (by simp), log, hsame, hall,
          ih (by rw [r'.config_step, hlater, hconfig]) hnext hrest]
      · have hnone : (rowLog r row).filter (·.1 == a) = [] :=
          List.filter_eq_nil_iff.mpr fun entry hentry => by
            rw [fst_of_mem_rowLog hentry]
            simpa using hown
        have hnext := Reconstructor.stateOf_step_of_other (r := r) (hrow.trans_ne hown)
        rw [List.filter_cons_of_neg (by simpa using hown), hnone, List.nil_append,
          ih (hconfig.trans hlater.symm) (hstate.trans hnext.symm) hrest]

/-! ## Intervals on a track -/

section Books

variable {config : Config} {bus : Bus.Config} {rows : List Entered} {s : Session}

theorem Books.findTrack?_iff (h : Books config bus rows s) (a : String) (id : Nat) :
    s.store.findTrack? .csvSlice a = some id ↔ s.trackIds[a]? = some id := by
  rw [h.coherent.findTrack?_iff, h.trackIds, h.tracks]
  constructor
  · rintro ⟨row, hrow, rfl, -, rfl⟩
    exact (mem_trackTable.mp hrow).1
  · intro hname
    exact ⟨{ id, kind := .csvSlice, key := a, name := config.trackLead ++ a },
      mem_trackTable.mpr ⟨hname, rfl, rfl⟩, rfl, rfl, rfl⟩

/-- What is on the track of an analyzer is its part of the log. -/
theorem Books.readingsOn_eq (h : Books config bus rows s) (a : String) :
    s.store.readingsOn .csvSlice a
      = ((log { config := bus } rows).filter (·.1 == a)).map (·.2) := by
  have hfilter := List.rel_filter (p := fun slice =>
      (s.store.findTrack? .csvSlice a).map Int.ofNat == some slice.track) (q := (·.1 == a))
    (fun slice entry hlogged => ?_) h.slices
  · rw [Store.readingsOn, ← List.forall₂_eq_eq_eq, List.forall₂_map_left_iff,
      List.forall₂_map_right_iff]
    exact hfilter.imp fun slice entry hlogged => Store.readingOf_of_means hlogged.2
  · -- the track of the slice is that of its entry, and no other analyzer has it
    obtain ⟨⟨id, hid, htrack⟩, -⟩ := hlogged
    dsimp only
    rw [beq_iff_eq, beq_iff_eq, htrack, Option.map_eq_some_iff]
    constructor
    · rintro ⟨found, hfound, heq⟩
      obtain rfl := Int.ofNat.inj heq
      rw [h.findTrack?_iff, h.trackIds] at hfound
      exact Option.some.inj (((h.trackIds _ _).mp hid).symm.trans hfound)
    · rintro rfl
      exact ⟨id, (h.findTrack?_iff _ _).mpr hid, rfl⟩

end Books

/-! ## Rows of one analyzer -/

def analyzerOf (config : Config) (schema : Schema) (cells : List String) : String :=
  orDefault (schema.value (schema.pad cells) .name) config.defaultAnalyzer

/-- The line is a row of this analyzer. -/
def ownLine (config : Config) (schema : Schema) (a line : String) : Bool :=
  !Text.isBlank (Session.stripReturn line)
    && analyzerOf config schema (fields (Session.stripReturn line)) == a

theorem records_filter (config : Config) (schema : Schema) (a : String) (lines : List String) :
    records (lines.filter (ownLine config schema a))
      = (records lines).filter (analyzerOf config schema · == a) := by
  induction lines with
  | nil => rfl
  | cons line lines ih =>
      by_cases hblank : Text.isBlank (Session.stripReturn line) = true
      · rw [records_of_blank hblank, List.filter_cons_of_neg (by simp [ownLine, hblank]), ih]
      · rw [records_of_not_blank hblank]
        by_cases hown : analyzerOf config schema (fields (Session.stripReturn line)) = a
        · rw [List.filter_cons_of_pos (by simp [ownLine, hblank, hown]),
            records_of_not_blank hblank, ih, List.filter_cons_of_pos (by simp [hown])]
        · rw [List.filter_cons_of_neg (by simp [ownLine, hown]), ih,
            List.filter_cons_of_neg (by simp [hown])]

theorem analyzer_of_ofCells {config : Config} {schema : Schema} {cells : List String}
    {row : Entered} (h : Entered.ofCells config schema cells = .ok row) :
    row.analyzer = analyzerOf config schema cells
      ∧ row.event.busRow.analyzer = row.analyzer := by
  rw [Entered.ofCells_eq config (args_pad schema cells)] at h
  cases hevent : Event.ofRow config schema (schema.pad cells) with
  | error failure => rw [hevent] at h; cases h
  | ok event =>
      rw [hevent] at h
      obtain rfl := Except.ok.inj h
      obtain ⟨hname, hbus, -⟩ := busRow_of_ofRow hevent
      exact ⟨hname, hbus⟩

theorem entries_of_header {config : Config} {header : String} {schema : Schema}
    (h : Schema.ofFields (fields (Session.stripReturn header)) = .ok schema)
    (lines : List String) :
    entries config (header :: lines)
      = (records lines).mapM (Entered.ofCells config schema) := by
  have hblank := not_blank_of_ofFields h
  rw [entries, records_of_not_blank (by rw [hblank]; decide)]
  dsimp only
  rw [h]
  rfl

theorem mapM_filter {config : Config} {schema : Schema} {cells : List (List String)}
    {rows : List Entered} (h : cells.mapM (Entered.ofCells config schema) = .ok rows)
    (a : String) :
    (cells.filter (analyzerOf config schema · == a)).mapM (Entered.ofCells config schema)
      = .ok (rows.filter (·.analyzer == a)) := by
  rw [mapM_eq_ok_iff] at h ⊢
  refine List.rel_filter (fun cells row hrow => ?_) h
  dsimp only
  rw [(analyzer_of_ofCells hrow).1]

theorem busRow_analyzer_of_mapM {config : Config} {schema : Schema} {cells : List (List String)}
    {rows : List Entered} (h : cells.mapM (Entered.ofCells config schema) = .ok rows) :
    ∀ row ∈ rows, row.event.busRow.analyzer = row.analyzer := by
  intro row hrow
  rw [mapM_eq_ok_iff] at h
  obtain ⟨i, hi, rfl⟩ := List.getElem_of_mem hrow
  exact (analyzer_of_ofCells (h.get (h.length_eq.symm ▸ hi) hi)).2

/-- Sessions that have read the same rows of an analyzer have the same intervals on its track. -/
theorem readingsOn_eq_of_own {config : Config} {bus : Bus.Config} {schema : Schema} {a : String}
    {lines lines' : List String} {rows rows' : List Entered} {s s' : Session}
    (hrows : (records lines).mapM (Entered.ofCells config schema) = .ok rows)
    (hrows' : (records lines').mapM (Entered.ofCells config schema) = .ok rows')
    (h : Books config bus rows s) (h' : Books config bus rows' s')
    (hown : lines'.filter (ownLine config schema a) = lines.filter (ownLine config schema a)) :
    s'.store.readingsOn .csvSlice a = s.store.readingsOn .csvSlice a := by
  have hsame := mapM_filter hrows a
  rw [← records_filter, ← hown, records_filter, mapM_filter hrows' a] at hsame
  rw [h.readingsOn_eq, h'.readingsOn_eq, log_filter a rfl rfl (busRow_analyzer_of_mapM hrows),
    log_filter a rfl rfl (busRow_analyzer_of_mapM hrows'), Except.ok.inj hsame]

/-- Lines can be read if each of them is a row of some analyzer that can be read there. -/
theorem exists_mapM_of_own {config : Config} {schema : Schema} {lines lines' : List String}
    {rows : List Entered}
    (hrows : (records lines).mapM (Entered.ofCells config schema) = .ok rows)
    (hown : ∀ a, lines'.filter (ownLine config schema a) = lines.filter (ownLine config schema a)) :
    ∃ rows', (records lines').mapM (Entered.ofCells config schema) = .ok rows' := by
  rw [exists_mapM_eq_ok_iff]
  intro cells hcells
  have hmem : cells ∈ (records lines').filter
      (analyzerOf config schema · == analyzerOf config schema cells) :=
    List.mem_filter.mpr ⟨hcells, by simp⟩
  rw [← records_filter, hown, records_filter] at hmem
  exact exists_mapM_eq_ok_iff.mp ⟨rows, hrows⟩ cells (List.mem_of_mem_filter hmem)

namespace Reader

open Text (allLines)

/-- A run over the pieces of an export fails as its rows or its codec do, or writes all rows
down. -/
theorem run_cases {config : Config} {bus : Bus.Config} {start : Reader}
    (hstart : create config bus {} = .ok start) (pieces : List (List UInt8)) :
    let lines := (allLines pieces.flatten).map start.lines.codec.decode
    (∃ failure left,
        (entries config (texts lines) = .error failure ∨ refusal? lines = some failure)
          ∧ (do pieces.forM push; finish : EStateM Failure Reader Unit) start
            = .error failure left)
      ∨ ∃ rows reader, entries config (texts lines) = .ok rows ∧ refusal? lines = none
          ∧ (do pieces.forM push; finish : EStateM Failure Reader Unit) start = .ok () reader
          ∧ Books config bus rows reader.session := by
  intro lines
  have houtcome := Import.outcome_of_create hstart pieces
  rw [session_of_create hstart, Session.readDecoded_eq] at houtcome
  rcases books_readAll config bus (texts lines) with
    ⟨failure, s, hfails, hread⟩ | ⟨rows, s, hrows, hread, hbooks⟩
  · rw [hread] at houtcome
    obtain ⟨left, hrun, -⟩ := eq_error_of_outcome houtcome
    exact Or.inl ⟨failure, left, Or.inl hfails, hrun⟩
  · rw [hread] at houtcome
    cases hrefusal : refusal? lines with
    | some failure =>
        rw [hrefusal] at houtcome
        obtain ⟨left, hrun, -⟩ := eq_error_of_outcome houtcome
        exact Or.inl ⟨failure, left, Or.inr rfl, hrun⟩
    | none =>
        rw [hrefusal] at houtcome
        obtain ⟨reader, hrun, rfl⟩ := eq_ok_of_outcome houtcome
        exact Or.inr ⟨rows, reader, hrows, rfl, hrun, hbooks⟩

/-- The lines among these that are rows of this analyzer. There is no telling whose row a line is
that the codec refuses, so it counts for each of them. -/
def ownRows (config : Config) (schema : Schema) (codec : Text.Codec) (a : String)
    (rows : List (List UInt8)) : List (List UInt8) :=
  rows.filter fun row => (codec.decode row).toOption.all (ownLine config schema a)

section OwnRows

variable {config : Config} {schema : Schema} {codec : Text.Codec} {rows rows' : List (List UInt8)}

/-- If the codec refuses no line, the rows of an analyzer have the texts that are its own. -/
theorem texts_ownRows (config : Config) (schema : Schema) (a : String)
    (h : refusal? (rows.map codec.decode) = none) :
    texts ((ownRows config schema codec a rows).map codec.decode)
        = (texts (rows.map codec.decode)).filter (ownLine config schema a)
      ∧ refusal? ((ownRows config schema codec a rows).map codec.decode) = none := by
  induction rows with
  | nil => exact ⟨rfl, rfl⟩
  | cons row rows ih =>
      rw [List.map_cons] at h ⊢
      cases hrow : codec.decode row with
      | error reason =>
          rw [hrow] at h
          cases h
      | ok text =>
          rw [hrow] at h
          obtain ⟨htexts, hrefusal⟩ := ih h
          by_cases hown : ownLine config schema a text = true
          · rw [ownRows, List.filter_cons_of_pos (by rw [hrow]; exact hown), List.map_cons, hrow,
              texts, texts, refusal?, List.filter_cons_of_pos hown]
            exact ⟨congrArg (text :: ·) htexts, hrefusal⟩
          · rw [ownRows, List.filter_cons_of_neg (by rw [hrow]; exact hown), texts,
              List.filter_cons_of_neg hown]
            exact ⟨htexts, hrefusal⟩

theorem refusal?_of_ownRows (a : String) (h : refusal? (rows.map codec.decode) = none)
    (hsame : ownRows config schema codec a rows' = ownRows config schema codec a rows) :
    refusal? (rows'.map codec.decode) = none := by
  rw [refusal?_eq_none_iff] at h ⊢
  intro line hline
  obtain ⟨row, hrow, rfl⟩ := List.mem_map.mp hline
  cases hdecode : codec.decode row with
  | ok text => exact ⟨text, rfl⟩
  | error reason =>
      have hmem : row ∈ ownRows config schema codec a rows' :=
        List.mem_filter.mpr ⟨hrow, by rw [hdecode]; rfl⟩
      rw [hsame] at hmem
      rw [← hdecode]
      exact h _ (List.mem_map_of_mem (List.mem_of_mem_filter hmem))

end OwnRows

section Header

variable {config : Config} {bus : Bus.Config} {start : Reader}
  (hstart : create config bus {} = .ok start) {header : List UInt8} {text : String}
  (htext : start.lines.codec.decode header = .ok text) {schema : Schema}
  (hheader : Schema.ofFields (fields (Session.stripReturn text)) = .ok schema)
  {pieces rows : List (List UInt8)} (hpieces : allLines pieces.flatten = header :: rows)
include hstart htext hheader hpieces

/-- An export whose rows can be decoded and read is written down. -/
theorem run_of_mapM (hrefusal : refusal? (rows.map start.lines.codec.decode) = none)
    {entered : List Entered}
    (hrows : (records (texts (rows.map start.lines.codec.decode))).mapM
      (Entered.ofCells config schema) = .ok entered) :
    ∃ reader, (do pieces.forM push; finish : EStateM Failure Reader Unit) start = .ok () reader
      ∧ Books config bus entered reader.session := by
  have hcases := run_cases hstart pieces
  rw [hpieces, List.map_cons, htext] at hcases
  dsimp only [texts, refusal?] at hcases
  rw [entries_of_header hheader, hrows, hrefusal] at hcases
  rcases hcases with ⟨failure, left, hfails | hfails, -⟩ | ⟨_, reader, hsame, -, hrun, hbooks⟩
  · cases hfails
  · cases hfails
  · obtain rfl := Except.ok.inj hsame
    exact ⟨reader, hrun, hbooks⟩

/-- And the rows of an export that is read without a failure can be decoded and read. -/
theorem mapM_of_run {reader : Reader}
    (hrun : (do pieces.forM push; finish : EStateM Failure Reader Unit) start = .ok () reader) :
    refusal? (rows.map start.lines.codec.decode) = none
      ∧ ∃ entered, (records (texts (rows.map start.lines.codec.decode))).mapM
          (Entered.ofCells config schema) = .ok entered
        ∧ Books config bus entered reader.session := by
  have hcases := run_cases hstart pieces
  rw [hpieces, List.map_cons, htext] at hcases
  dsimp only [texts, refusal?] at hcases
  rw [entries_of_header hheader, hrun] at hcases
  rcases hcases with ⟨failure, left, -, hfails⟩ | ⟨entered, _, hrows, hrefusal, hsame, hbooks⟩
  · cases hfails
  · obtain ⟨-, rfl⟩ := EStateM.Result.ok.inj hsame
    exact ⟨hrefusal, entered, hrows, hbooks⟩

end Header

/-- Analyzers do not meet. Let an export be read without a failure, whatever its rows are and in
whatever pieces it comes. Then the rows of one analyzer are read without a failure under the same
header by themselves, and they give it the intervals that it has in the whole export, transactions
included. And any other export with the same header and, for each analyzer, with the same rows in
the same order gives every analyzer the same intervals. -/
theorem analyzers_apart {config : Config} {bus : Bus.Config} {start : Reader}
    (hstart : create config bus {} = .ok start) {header : List UInt8} {text : String}
    (htext : start.lines.codec.decode header = .ok text) {schema : Schema}
    (hheader : Schema.ofFields (fields (Session.stripReturn text)) = .ok schema)
    {pieces rows : List (List UInt8)} (hpieces : allLines pieces.flatten = header :: rows)
    {reader : Reader}
    (hrun : (do pieces.forM push; finish : EStateM Failure Reader Unit) start = .ok () reader) :
    (∀ (a : String) (others : List (List UInt8)), allLines others.flatten
          = header :: ownRows config schema start.lines.codec a rows →
        ∃ alone, (do others.forM push; finish : EStateM Failure Reader Unit) start = .ok () alone
          ∧ alone.session.store.readingsOn .csvSlice a
            = reader.session.store.readingsOn .csvSlice a)
      ∧ ∀ others rows' : List (List UInt8), allLines others.flatten = header :: rows' →
        (∀ a, ownRows config schema start.lines.codec a rows'
          = ownRows config schema start.lines.codec a rows) →
        ∃ other, (do others.forM push; finish : EStateM Failure Reader Unit) start = .ok () other
          ∧ ∀ a, other.session.store.readingsOn .csvSlice a
            = reader.session.store.readingsOn .csvSlice a := by
  obtain ⟨hrefusal, entered, hentered, hbooks⟩ := mapM_of_run hstart htext hheader hpieces hrun
  constructor
  · intro a others hothers
    obtain ⟨htexts, hdecoded⟩ := texts_ownRows config schema a hrefusal
    have hown := mapM_filter hentered a
    rw [← records_filter, ← htexts] at hown
    obtain ⟨alone, hrun', hbooks'⟩ := run_of_mapM hstart htext hheader hothers hdecoded hown
    refine ⟨alone, hrun', readingsOn_eq_of_own hentered hown hbooks hbooks' ?_⟩
    rw [htexts, List.filter_filter]
    simp
  · intro others rows' hothers hsame
    have hrefusal' := refusal?_of_ownRows "" hrefusal (hsame "")
    have hown : ∀ a, (texts (rows'.map start.lines.codec.decode)).filter (ownLine config schema a)
        = (texts (rows.map start.lines.codec.decode)).filter (ownLine config schema a) := by
      intro a
      rw [← (texts_ownRows config schema a hrefusal').1,
        ← (texts_ownRows config schema a hrefusal).1, hsame]
    obtain ⟨entered', hentered'⟩ := exists_mapM_of_own hentered hown
    obtain ⟨other, hrun', hbooks'⟩ :=
      run_of_mapM hstart htext hheader hothers hrefusal' hentered'
    exact ⟨other, hrun', fun a => readingsOn_eq_of_own hentered hentered' hbooks hbooks' (hown a)⟩

def plainHeader : List UInt8 := Import.plainOctets "name,type,start_time,duration,data"

/-- Two analyzers in the middle of a transaction at the same time, whose names differ in capitals
only, and rows of a third. -/
def mixedRows : List (List UInt8) :=
  ["I2C,start,1,0,", "i2c,start,2,0,", "UART,x,2,0,7", "I2C,data,3,0,0x01", "i2c,data,4,0,0x02",
    "I2C,stop,5,0,", "i2c,stop,6,0,"].map Import.plainOctets

def plainSchema : Schema where
  columns := ["name", "type", "start_time", "duration", "data"]
  places := { name := 0, type := 1, startTime := 2, duration := 3
              data := some 4, address := none, read := none }

theorem analyzers_apart_mixedRows :
    ∃ start reader alone, create {} {} {} = .ok start
      ∧ (do [Text.joinLines (plainHeader :: mixedRows)].forM push; finish :
          EStateM Failure Reader Unit) start = .ok () reader
      ∧ (do [Text.joinLines (plainHeader :: ownRows {} plainSchema .utf8 "i2c" mixedRows)].forM push
            finish : EStateM Failure Reader Unit) start = .ok () alone
      ∧ alone.session.store.readingsOn .csvSlice "i2c"
        = reader.session.store.readingsOn .csvSlice "i2c"
      ∧ (reader.session.store.readingsOn .csvSlice "i2c").map (·.name)
        = ["start", "0x02", "stop", "i2c W: 0x02"] := by
  have hcreate : create {} {} {} = .ok {} := rfl
  have htext : Text.Codec.utf8.decode plainHeader = .ok (Text.Encoding.utf8.decode plainHeader) :=
    rfl
  have hheader : Schema.ofFields
      (fields (Session.stripReturn (Text.Encoding.utf8.decode plainHeader))) = .ok plainSchema := by
    rfl
  have hpieces : allLines [Text.joinLines (plainHeader :: mixedRows)].flatten
      = plainHeader :: mixedRows := by decide +kernel
  have halone : allLines [Text.joinLines
        (plainHeader :: ownRows {} plainSchema .utf8 "i2c" mixedRows)].flatten
      = plainHeader :: ownRows {} plainSchema .utf8 "i2c" mixedRows := by decide +kernel
  have hnames : (entries {} (texts ((plainHeader :: mixedRows).map
        Text.Codec.utf8.decode))).toOption.map
        (fun rows => (((log { config := {} } rows).filter (·.1 == "i2c")).map (·.2)).map (·.name))
      = some ["start", "0x02", "stop", "i2c W: 0x02"] := by decide +kernel
  have hcases := run_cases hcreate [Text.joinLines (plainHeader :: mixedRows)]
  rw [hpieces] at hcases
  rcases hcases with ⟨failure, left, hfails | hfails, -⟩ | ⟨rows, reader, hrows, -, hrun, hbooks⟩
  · change entries {} (texts ((plainHeader :: mixedRows).map Text.Codec.utf8.decode)) = _ at hfails
    rw [hfails] at hnames
    cases hnames
  · cases hfails
  · change entries {} (texts ((plainHeader :: mixedRows).map Text.Codec.utf8.decode)) = _ at hrows
    obtain ⟨alone, hrun', hsame⟩ :=
      (analyzers_apart hcreate htext hheader hpieces hrun).1 "i2c" _ halone
    rw [hrows] at hnames
    refine ⟨{}, reader, alone, hcreate, hrun, hrun', hsame, ?_⟩
    rw [hbooks.readingsOn_eq]
    exact Option.some.inj hnames

end Reader

end Csv

end LogicCapture
