import Mathlib
import LogicCapture.Proofs.Failures
import LogicCapture.Proofs.Segments

/-!
# The intervals of an export

The rows of an export are those below its header, up to the first that cannot be read. Each of them
leaves an interval with its own times, and behind it, if the row ends a segment of a bus analyzer,
one with the start and the duration of the transaction (`Filled`). Rows have times that have been
converted, so these fit a signed 64-bit word, and so do the starts of transactions. Their durations
do unless a segment takes too long (`fits_sliceTimes_duration_iff`).
-/

namespace LogicCapture

namespace Bus

/-! ## Transactions of a run -/

/-- The first and the last row of a segment are among the rows it is found in. -/
theorem mem_of_mem_segments {config : Config} {rows : List Row} {segment : Segment}
    (h : segment ∈ (segments config rows).1) : segment.first ∈ rows ∧ segment.last ∈ rows := by
  fun_induction segments config rows with
  | case1 rows hstart => cases h
  | case2 rows first rest hstart hstop => cases h
  | case3 rows first rest hstart last rest' hstop more unfinished hmore ih =>
      have hrest : ∀ row ∈ first :: rest, row ∈ rows :=
        fun row hrow => (List.dropWhile_suffix _).mem (hstart ▸ hrow)
      have hrest' : ∀ row ∈ last :: rest', row ∈ rest :=
        fun row hrow => (List.dropWhile_suffix _).mem (hstop ▸ hrow)
      rcases List.mem_cons.mp h with rfl | hlater
      · exact ⟨hrest _ List.mem_cons_self,
          hrest _ (List.mem_cons_of_mem _ (hrest' _ List.mem_cons_self))⟩
      · rw [hmore] at ih
        obtain ⟨hfirst, hlast⟩ := ih hlater
        have hlift : ∀ row ∈ rest', row ∈ rows := fun row hrow =>
          hrest _ (List.mem_cons_of_mem _ (hrest' _ (List.mem_cons_of_mem _ hrow)))
        exact ⟨hlift _ hfirst, hlift _ hlast⟩

namespace Reconstructor

theorem run_concat (r : Reconstructor) (rows : List Row) (row : Row) :
    r.run (rows ++ [row]) = ((r.run rows).1 ++ [(row, ((r.run rows).2.step row).1)],
      ((r.run rows).2.step row).2) := by
  induction rows generalizing r with
  | nil => rw [List.nil_append, run_cons, run, run, List.nil_append]
  | cons first rows ih => rw [List.cons_append, run_cons, run_cons, ih, List.cons_append]

theorem mem_of_mem_run {r : Reconstructor} {rows : List Row} {row : Row}
    {ended : Option Transaction} (h : (row, ended) ∈ (r.run rows).1) : row ∈ rows := by
  induction rows generalizing r with
  | nil => cases h
  | cons first rows ih =>
      rw [run_cons] at h
      rcases List.mem_cons.mp h with heq | hlater
      · obtain ⟨rfl, -⟩ := Prod.mk.inj heq
        exact List.mem_cons_self
      · exact List.mem_cons_of_mem _ (ih hlater)

theorem mem_transactionsOf {a : String} {returned : List (Row × Option Transaction)}
    {t : Transaction} :
    t ∈ transactionsOf a returned ↔ ∃ row, (row, some t) ∈ returned ∧ row.analyzer = a := by
  simp only [transactionsOf, List.mem_filterMap, List.mem_filter, beq_iff_eq]
  constructor
  · rintro ⟨⟨row, ended⟩, ⟨hmem, hrow⟩, rfl⟩
    exact ⟨row, hmem, hrow⟩
  · rintro ⟨row, hmem, hrow⟩
    exact ⟨(row, some t), ⟨hmem, hrow⟩, rfl⟩

/-- The transactions that rows return are those of the complete segments of bus analyzers. -/
theorem returned_iff {config : Config} (hd : config.Distinct) (rows : List Row)
    (t : Transaction) :
    (∃ row, (row, some t) ∈ (run { config } rows).1) ↔
      ∃ a, isBusAnalyzer config a = true
        ∧ ∃ segment ∈ (segments config (rowsOf a rows)).1, t = segment.transaction config := by
  have hsegments : ∀ a, isBusAnalyzer config a = true →
      transactionsOf a (run { config } rows).1
        = (segments config (rowsOf a rows)).1.map (Segment.transaction config) := by
    intro a ha
    obtain ⟨htransactions, -⟩ := @run_eq_stateRun { config } a ha rows
    exact htransactions.trans (State.run_eq_segments hd (rowsOf a rows) rfl).1
  constructor
  · rintro ⟨row, hmem⟩
    have ha : isBusAnalyzer config row.analyzer = true := by
      by_contra hother
      cases run_of_other rows hmem (Bool.eq_false_of_not_eq_true hother)
    have ht := mem_transactionsOf.mpr ⟨row, hmem, rfl⟩
    rw [hsegments _ ha, List.mem_map] at ht
    obtain ⟨segment, hsegment, rfl⟩ := ht
    exact ⟨row.analyzer, ha, segment, hsegment, rfl⟩
  · rintro ⟨a, ha, segment, hsegment, rfl⟩
    have ht := List.mem_map_of_mem (f := Segment.transaction config) hsegment
    rw [← hsegments a ha] at ht
    obtain ⟨row, hmem, -⟩ := mem_transactionsOf.mp ht
    exact ⟨row, hmem⟩

end Reconstructor

theorem distinct_default : ({} : Config).Distinct := by
  unfold Config.Distinct
  decide

end Bus

namespace Csv

open Bus (Reconstructor)

/-! ## Times of intervals -/

/-- Start and duration of the intervals that come of some rows: one for each row, and behind it one
for the transaction that it ends. -/
def sliceTimes (rows : List Bus.Row) : List (Int × Int) :=
  (Reconstructor.run {} rows).1.flatMap fun (row, ended) =>
    (row.ts, row.dur) :: ended.toList.map fun t => (t.start, t.duration)

/-- A segment of a bus analyzer takes longer than a signed 64-bit word can say. -/
def Overspans (rows : List Bus.Row) : Prop :=
  ∃ a, Reconstructor.isBusAnalyzer {} a = true
    ∧ ∃ segment ∈ (Bus.segments {} (Reconstructor.rowsOf a rows)).1,
      0x8000000000000000 ≤ segment.last.ts + segment.last.dur - segment.first.ts

def Fits (row : Bus.Row) : Prop := fitsWord64 row.ts = true ∧ fitsWord64 row.dur = true

theorem mem_sliceTimes {rows : List Bus.Row} {times : Int × Int} :
    times ∈ sliceTimes rows ↔
      (∃ row ended, (row, ended) ∈ (Reconstructor.run {} rows).1 ∧ times = (row.ts, row.dur))
        ∨ ∃ row t, (row, some t) ∈ (Reconstructor.run {} rows).1
          ∧ times = (t.start, t.duration) := by
  rw [sliceTimes, List.mem_flatMap]
  constructor
  · rintro ⟨⟨row, ended⟩, hmem, htimes⟩
    rcases List.mem_cons.mp htimes with rfl | htransaction
    · exact Or.inl ⟨row, ended, hmem, rfl⟩
    · obtain ⟨t, ht, rfl⟩ := List.mem_map.mp htransaction
      rw [Option.mem_toList] at ht
      obtain rfl := ht
      exact Or.inr ⟨row, t, hmem, rfl⟩
  · rintro (⟨row, ended, hmem, rfl⟩ | ⟨row, t, hmem, rfl⟩)
    · exact ⟨_, hmem, List.mem_cons_self⟩
    · exact ⟨_, hmem, List.mem_cons_of_mem _ (List.mem_singleton.mpr rfl)⟩

/-- A transaction starts with a row, and its duration is that of its segment. -/
theorem exists_segment {rows : List Bus.Row} {row : Bus.Row} {t : Bus.Transaction}
    (h : (row, some t) ∈ (Reconstructor.run {} rows).1) :
    ∃ a, Reconstructor.isBusAnalyzer {} a = true
      ∧ ∃ segment ∈ (Bus.segments {} (Reconstructor.rowsOf a rows)).1,
        segment.first ∈ rows ∧ t.start = segment.first.ts
          ∧ t.duration = max 0 (segment.last.ts + segment.last.dur - segment.first.ts) := by
  obtain ⟨a, ha, segment, hsegment, rfl⟩ :=
    (Reconstructor.returned_iff Bus.distinct_default rows t).mp ⟨row, h⟩
  have hfirst := (Bus.mem_of_mem_segments hsegment).1
  exact ⟨a, ha, segment, hsegment, List.mem_of_mem_filter hfirst, rfl, rfl⟩

theorem fits_sliceTimes_start {rows : List Bus.Row} (h : ∀ row ∈ rows, Fits row) :
    ∀ times ∈ sliceTimes rows, fitsWord64 times.1 = true := by
  intro times htimes
  rcases mem_sliceTimes.mp htimes with ⟨row, ended, hmem, rfl⟩ | ⟨row, t, hmem, rfl⟩
  · exact (h row (Reconstructor.mem_of_mem_run hmem)).1
  · obtain ⟨a, ha, segment, hsegment, hfirst, hstart, -⟩ := exists_segment hmem
    rw [hstart]
    exact (h _ hfirst).1

/-- All durations are signed 64-bit words, unless a segment takes longer. -/
theorem fits_sliceTimes_duration_iff {rows : List Bus.Row} (h : ∀ row ∈ rows, Fits row) :
    (∀ times ∈ sliceTimes rows, fitsWord64 times.2 = true) ↔ ¬Overspans rows := by
  constructor
  · rintro hfits ⟨a, ha, segment, hsegment, hspan⟩
    obtain ⟨row, hmem⟩ := (Reconstructor.returned_iff Bus.distinct_default rows _).mpr
      ⟨a, ha, segment, hsegment, rfl⟩
    have hduration := hfits _ (mem_sliceTimes.mpr (Or.inr ⟨row, _, hmem, rfl⟩))
    simp only [Bus.Segment.transaction, fitsWord64_iff] at hduration
    omega
  · intro hspan times htimes
    rcases mem_sliceTimes.mp htimes with ⟨row, ended, hmem, rfl⟩ | ⟨row, t, hmem, rfl⟩
    · exact (h row (Reconstructor.mem_of_mem_run hmem)).2
    · obtain ⟨a, ha, segment, hsegment, -, -, hduration⟩ := exists_segment hmem
      have hshort : segment.last.ts + segment.last.dur - segment.first.ts < 0x8000000000000000 :=
        lt_of_not_ge fun hlong => hspan ⟨a, ha, segment, hsegment, hlong⟩
      rw [hduration, fitsWord64_iff]
      omega

/-! ## What rows leave in a store -/

/-- Intervals are on tracks of the store, and so is what is remembered of them. -/
structure Placed (s : Session) : Prop where
  track_lt : ∀ slice ∈ s.store.slices, 0 ≤ slice.track ∧ slice.track < s.store.tracks.size
  known_lt : ∀ (analyzer : String) (track : Nat), s.trackIds[analyzer]? = some track →
    track < s.store.tracks.size

/-- What has been read is these rows and nothing else: the intervals have their times, and there are
no more tracks than intervals. -/
structure Filled (s : Session) (rows : List Bus.Row) : Prop extends Placed s where
  bus : s.bus = (Reconstructor.run {} rows).2
  fits : ∀ row ∈ rows, Fits row
  counters : s.store.counters = #[]
  times : s.store.slices.toList.map (fun slice => (slice.ts, slice.dur)) = sliceTimes rows
  tracks_le : s.store.tracks.size ≤ s.store.slices.size

theorem sliceTimes_concat (rows : List Bus.Row) (row : Bus.Row) :
    sliceTimes (rows ++ [row]) = sliceTimes rows ++ (row.ts, row.dur) ::
      ((Reconstructor.run {} rows).2.step row).1.toList.map fun t => (t.start, t.duration) := by
  rw [sliceTimes, Reconstructor.run_concat, List.flatMap_append, List.flatMap_singleton, sliceTimes]

theorem internTrack_lt (store : Trace.Store) (kind : Trace.TrackKind) (key name : String) :
    (store.internTrack kind key name).1 < (store.internTrack kind key name).2.tracks.size
      ∧ store.tracks.size ≤ (store.internTrack kind key name).2.tracks.size
      ∧ (store.internTrack kind key name).2.tracks.size ≤ store.tracks.size + 1 := by
  unfold Trace.Store.internTrack
  split
  · next id hfound =>
    have hid := (Array.findIdx?_eq_some_iff_getElem.mp hfound).1
    exact ⟨hid, Nat.le_refl _, Nat.le_succ _⟩
  · dsimp only
    rw [Array.size_push, Trace.Store.tracks_intern]
    exact ⟨Nat.lt_succ_self _, Nat.le_succ _, Nat.le_refl _⟩

theorem forall_remembered_insert {trackIds : Std.TreeMap String Nat} {P : String → Nat → Prop}
    {analyzer : String} {track : Nat} (hnew : P analyzer track)
    (hold : ∀ (other : String) (id : Nat), trackIds[other]? = some id → P other id) :
    ∀ (other : String) (id : Nat), (trackIds.insert analyzer track)[other]? = some id →
      P other id := by
  intro other id hother
  rw [Std.TreeMap.getElem?_insert] at hother
  split at hother
  · next hsame =>
    obtain rfl := Std.LawfulEqCmp.compare_eq_iff_eq.mp hsame
    exact Option.some.inj hother ▸ hnew
  · exact hold other id hother

/-- Finding the track of an analyzer changes the tracks only, which are one more at most. -/
theorem trackFor_spec {s s₁ : Session} {analyzer : String} {track : Nat} (h : Placed s)
    (htrack : s.trackFor analyzer = (track, s₁)) :
    Placed s₁ ∧ track < s₁.store.tracks.size
      ∧ s₁.store.tracks.size ≤ s.store.tracks.size + 1
      ∧ s₁.bus = s.bus
      ∧ s₁.store.slices = s.store.slices ∧ s₁.store.counters = s.store.counters := by
  unfold Session.trackFor at htrack
  split at htrack
  · next known hknown =>
    obtain ⟨rfl, rfl⟩ := Prod.mk.inj htrack
    exact ⟨h, h.known_lt analyzer _ hknown, Nat.le_succ _, rfl, rfl, rfl⟩
  · have hlt := internTrack_lt s.store .csvSlice analyzer (s.config.trackLead ++ analyzer)
    have hslices := s.store.slices_internTrack .csvSlice analyzer (s.config.trackLead ++ analyzer)
    have hcounters :=
      s.store.counters_internTrack .csvSlice analyzer (s.config.trackLead ++ analyzer)
    dsimp only at htrack
    generalize s.store.internTrack .csvSlice analyzer (s.config.trackLead ++ analyzer) = interned
      at htrack hlt hslices hcounters
    obtain ⟨rfl, rfl⟩ := Prod.mk.inj htrack
    obtain ⟨hlt, hgrows, hsize⟩ := hlt
    refine ⟨⟨?_, forall_remembered_insert hlt ?_⟩, hlt, hsize, rfl, hslices, hcounters⟩
    · intro slice hslice
      rw [hslices] at hslice
      obtain ⟨hnonneg, hslice⟩ := h.track_lt slice hslice
      exact ⟨hnonneg, lt_of_lt_of_le hslice (Int.ofNat_le.mpr hgrows)⟩
    · exact fun other known hknown => lt_of_lt_of_le (h.known_lt other known hknown) hgrows

theorem Placed.mem_addInterval {s : Session} (h : Placed s) (interval : Trace.Interval)
    {track : Nat} (htrack : track < s.store.tracks.size) (hinterval : interval.track = track) :
    ∀ slice ∈ (s.store.addInterval interval).slices,
      0 ≤ slice.track ∧ slice.track < s.store.tracks.size := by
  intro slice hslice
  rcases Array.mem_push.mp hslice with hold | rfl
  · exact h.track_lt slice hold
  · dsimp only
    rw [hinterval]
    exact ⟨Int.natCast_nonneg track, Int.ofNat_lt.mpr htrack⟩

theorem Placed.addRow {s : Session} (h : Placed s) (event : Event) (args : List Trace.Arg)
    {track : Nat} (htrack : track < s.store.tracks.size) : Placed (s.addRow event args track) :=
  ⟨h.mem_addInterval (Session.intervalOf event args track) htrack rfl, h.known_lt⟩

theorem Placed.addTransaction {s : Session} (h : Placed s) (t : Bus.Transaction) {track : Nat}
    (htrack : track < s.store.tracks.size) : Placed (s.addTransaction t track) :=
  ⟨h.mem_addInterval (Session.transactionInterval s.bus.config.category t track) htrack rfl,
    h.known_lt⟩

theorem stepBus_eq (s : Session) (row : Bus.Row) :
    s.stepBus row = ((s.bus.step row).1, { s with bus := (s.bus.step row).2 }) := rfl

theorem Placed.stepBus {s : Session} (h : Placed s) (row : Bus.Row) :
    Placed (s.stepBus row).2 := by
  rw [stepBus_eq]
  exact ⟨h.track_lt, h.known_lt⟩

theorem times_addInterval (store : Trace.Store) (interval : Trace.Interval) :
    (store.addInterval interval).slices.toList.map (fun slice => (slice.ts, slice.dur))
      = store.slices.toList.map (fun slice => (slice.ts, slice.dur))
        ++ [(interval.ts, interval.dur)] := by
  rw [Trace.Store.addInterval, Array.toList_push, List.map_append]
  rfl

/-- A row is added on its track and is a step of the bus, which may end a transaction. -/
theorem onRow_cases {s s₁ : Session} {event : Event} {track : Nat} (args : List Trace.Arg)
    (htrack : s.trackFor event.analyzer = (track, s₁)) :
    ((s₁.bus.step event.busRow).1 = none
        ∧ s.onRow event args = ((s₁.addRow event args track).stepBus event.busRow).2)
      ∨ ∃ t, (s₁.bus.step event.busRow).1 = some t
        ∧ s.onRow event args
          = ((s₁.addRow event args track).stepBus event.busRow).2.addTransaction t track := by
  unfold Session.onRow
  rw [htrack]
  have hended : ((s₁.addRow event args track).stepBus event.busRow).1
      = (s₁.bus.step event.busRow).1 := by
    rw [stepBus_eq, Session.addRow]
  rw [← hended]
  dsimp only
  generalize (s₁.addRow event args track).stepBus event.busRow = stepped
  obtain ⟨_ | t, s₂⟩ := stepped
  · exact Or.inl ⟨rfl, rfl⟩
  · exact Or.inr ⟨t, rfl, rfl⟩

/-- A row adds its interval, and that of the transaction it ends. -/
theorem Filled.onRow {s : Session} {rows : List Bus.Row} (h : Filled s rows) {event : Event}
    (args : List Trace.Arg) (hts : event.busRow.ts = event.ts) (hdur : event.busRow.dur = event.dur)
    (hfits : Fits event.busRow) : Filled (s.onRow event args) (rows ++ [event.busRow]) := by
  rcases htrack : s.trackFor event.analyzer with ⟨track, s₁⟩
  obtain ⟨hplaced, hlt, hsize, hbus, hslices, hcounters⟩ := trackFor_spec h.toPlaced htrack
  have hrow := (hplaced.addRow event args hlt).stepBus event.busRow
  have hstep : ((s₁.addRow event args track).stepBus event.busRow).2.bus
      = (Reconstructor.run {} (rows ++ [event.busRow])).2 := by
    rw [stepBus_eq, Session.addRow, Reconstructor.run_concat, ← h.bus, ← hbus]
  have hfits : ∀ row ∈ rows ++ [event.busRow], Fits row := by
    intro row hmem
    rcases List.mem_append.mp hmem with hold | hnew
    · exact h.fits row hold
    · exact List.mem_singleton.mp hnew ▸ hfits
  have htimes := sliceTimes_concat rows event.busRow
  have htracks := h.tracks_le
  rw [hts, hdur, ← h.bus, ← hbus, ← h.times, ← hslices] at htimes
  rw [← hslices] at htracks
  rcases onRow_cases args htrack with ⟨hended, heq⟩ | ⟨t, hended, heq⟩
  · rw [hended] at htimes
    rw [heq]
    refine ⟨hrow, hstep, hfits, ?_, ?_, ?_⟩
    · dsimp only [Session.stepBus, Session.addRow]
      rw [Trace.Store.counters_addInterval, hcounters, h.counters]
    · exact (times_addInterval _ _).trans htimes.symm
    · dsimp only [Session.stepBus, Session.addRow]
      rw [Trace.Store.tracks_addInterval, Trace.Store.size_slices_addInterval]
      omega
  · -- the interval of the transaction is on the same track
    rw [hended] at htimes
    rw [heq]
    refine ⟨hrow.addTransaction t hlt, hstep, hfits, ?_, ?_, ?_⟩
    · dsimp only [Session.addTransaction, Session.stepBus, Session.addRow]
      rw [Trace.Store.counters_addInterval, Trace.Store.counters_addInterval, hcounters, h.counters]
    · dsimp only [Session.addTransaction, Session.stepBus, Session.addRow]
      rw [times_addInterval, times_addInterval, htimes, List.append_assoc]
      rfl
    · dsimp only [Session.addTransaction, Session.stepBus, Session.addRow]
      rw [Trace.Store.tracks_addInterval, Trace.Store.tracks_addInterval,
        Trace.Store.size_slices_addInterval, Trace.Store.size_slices_addInterval]
      omega

/-! ## Rows of an export -/

theorem filled_start (config : Config) : Filled { config } [] where
  track_lt _ hslice := absurd hslice (Array.not_mem_empty _)
  known_lt _ _ hknown := by simp at hknown
  bus := rfl
  fits _ hrow := absurd hrow List.not_mem_nil
  counters := rfl
  times := rfl
  tracks_le := Nat.le_refl _

theorem internAll_frame (store : Trace.Store) (texts : List String) :
    (Schema.internAll store texts).2.tracks = store.tracks
      ∧ (Schema.internAll store texts).2.counters = store.counters
      ∧ (Schema.internAll store texts).2.slices = store.slices := by
  induction texts generalizing store with
  | nil => exact ⟨rfl, rfl, rfl⟩
  | cons text texts ih =>
      obtain ⟨htracks, hcounters, hslices⟩ := ih (store.intern text).2
      exact ⟨htracks, hcounters, hslices⟩

/-- A header adds texts only. -/
theorem Filled.setSchema {s : Session} {rows : List Bus.Row} (h : Filled s rows)
    (schema : Schema) : Filled (s.setSchema schema) rows := by
  obtain ⟨htracks, hcounters, hslices⟩ := internAll_frame s.store schema.columns
  change (s.setSchema schema).store.tracks = _ at htracks
  change (s.setSchema schema).store.counters = _ at hcounters
  change (s.setSchema schema).store.slices = _ at hslices
  refine ⟨⟨?_, ?_⟩, h.bus, h.fits, hcounters.trans h.counters, ?_, ?_⟩
  · rw [hslices, htracks]
    exact h.track_lt
  · rw [htracks]
    exact h.known_lt
  · rw [hslices]
    exact h.times
  · rw [hslices, htracks]
    exact h.tracks_le

theorem busRow_of_ofRow {config : Config} {schema : Schema} {row : List String} {event : Event}
    (h : Event.ofRow config schema row = .ok event) :
    event.analyzer = orDefault (schema.value row .name) config.defaultAnalyzer
      ∧ event.busRow.analyzer = event.analyzer ∧ event.busRow.ts = event.ts
      ∧ event.busRow.dur = event.dur ∧ Fits event.busRow := by
  obtain ⟨start, duration, ts, dur, -, -, hts, hdur, rfl⟩ := Event.ofRow_eq_ok h
  dsimp only [Event.timed]
  exact ⟨rfl, rfl, rfl, rfl, Time.fitsWord64_of_ofSeconds hts, Time.fitsWord64_of_ofSeconds hdur⟩

/-- The rows that can be read, up to the first that cannot, as they are given to the bus. -/
def readableRows (config : Config) (schema : Schema) : List (List String) → List Bus.Row
  | [] => []
  | cells :: rows =>
    match Event.ofRow config schema (schema.pad cells) with
    | .error _ => []
    | .ok event => event.busRow :: readableRows config schema rows

/-- The rows of an export: those below its header. -/
def exportRows (config : Config) (lines : List String) : List Bus.Row :=
  match records lines with
  | [] => []
  | header :: rows =>
    match Schema.ofFields header with
    | .error _ => []
    | .ok schema => readableRows config schema rows

theorem readableRows_intern (config : Config) (schema : Schema) (store : Trace.Store)
    (rows : List (List String)) :
    readableRows config (schema.intern store).1 rows = readableRows config schema rows := by
  induction rows with
  | nil => rfl
  | cons cells rows ih =>
      have hrow : Event.ofRow config (schema.intern store).1 ((schema.intern store).1.pad cells)
          = Event.ofRow config schema (schema.pad cells) := rfl
      rw [readableRows, readableRows, hrow, ih]

/-- Below the header a session is filled with the rows that can be read. -/
theorem Filled.readRows {s : Session} {rows : List Bus.Row} (h : Filled s rows) {schema : Schema}
    (hschema : s.schema = some schema) (more : List (List String)) :
    Filled (s.readRecords more).2 (rows ++ readableRows s.config schema more) := by
  induction more generalizing s rows with
  | nil => exact (List.append_nil rows).symm ▸ h
  | cons cells more ih =>
      obtain ⟨args, -, hcells⟩ := Session.ofCells_eq s.config schema cells
      rw [Session.readRecords_row hschema, readableRows, hcells]
      cases hevent : Event.ofRow s.config schema (schema.pad cells) with
      | error failure => exact (List.append_nil rows).symm ▸ h
      | ok event =>
          obtain ⟨-, -, hts, hdur, hfits⟩ := busRow_of_ofRow hevent
          obtain ⟨hconfig, hkept⟩ := s.frame_onRow event args
          have hrow := ih (h.onRow args hts hdur hfits) (hkept.trans hschema)
          rw [hconfig, ← List.append_cons] at hrow
          exact hrow

/-- Before the header a session is filled with the rows of the export that follows. -/
theorem Filled.readAll_export {s : Session} {rows : List Bus.Row} (h : Filled s rows)
    (hschema : s.schema = none) (lines : List String) :
    Filled (s.readAll lines).2 (rows ++ exportRows s.config lines) := by
  rw [Session.readAll_eq, exportRows]
  cases records lines with
  | nil => exact (List.append_nil rows).symm ▸ h
  | cons header more =>
      rw [Session.readRecords_header hschema]
      dsimp only
      cases hfields : Schema.ofFields header with
      | error failure => exact (List.append_nil rows).symm ▸ h
      | ok schema =>
          have hknown : (s.setSchema schema).schema = some (schema.intern s.store).1 := rfl
          have hrows := (h.setSchema schema).readRows hknown more
          rw [readableRows_intern] at hrows
          exact hrows

/-- Whatever lines are read, a filled session stays filled. -/
theorem Filled.exists_readAll {s : Session} {rows : List Bus.Row} (h : Filled s rows)
    (lines : List String) : ∃ rows', Filled (s.readAll lines).2 rows' := by
  cases hschema : s.schema with
  | none => exact ⟨_, h.readAll_export hschema lines⟩
  | some schema =>
      rw [Session.readAll_eq]
      exact ⟨_, h.readRows hschema (records lines)⟩

end Csv

end LogicCapture
