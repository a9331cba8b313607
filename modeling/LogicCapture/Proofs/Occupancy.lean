import Mathlib
import LogicCapture.Proofs.Additions
import LogicCapture.Proofs.Ledger
import LogicCapture.Proofs.Ranges

/-!
# No track without events

A track is asked for only when there is something to put on it: the samples of a chunk on the track
of a capture, the interval of a row on that of an export. So at any moment of any import, the one
that fails included, samples are on tracks of captures, intervals are on tracks of exports, and
every track has one or the other (`Occupied`). What is stored by a chunk or a row is on one track,
and that is the only one that can be new (`Fills`); hence each step of a reader leaves an occupied
store occupied, and so does every sequence of imports (`Imported.occupied`).
-/

namespace LogicCapture

namespace Trace.Store

variable {s later : Store} {id : Nat} {known : TrackKey}

/-- There is an event on the track with this number. -/
def HasEvent (s : Store) (id : Nat) : Prop :=
  (∃ counter ∈ s.counters, counter.track = id) ∨ ∃ slice ∈ s.slices, slice.track = id

/-- Samples are on tracks of captures and intervals on tracks of exports, and no track is without
events. -/
structure Occupied (s : Store) : Prop where
  counter_track : ∀ counter ∈ s.counters, ∃ known,
    s.trackKey? counter.track = some known ∧ known.1 ≠ .csvSlice
  slice_track : ∀ slice ∈ s.slices, ∃ known,
    s.trackKey? slice.track = some known ∧ known.1 = .csvSlice
  used : ∀ id < s.tracks.size, s.HasEvent id

theorem occupied_empty : Occupied {} where
  counter_track _ hcounter := absurd hcounter (Array.not_mem_empty _)
  slice_track _ hslice := absurd hslice (Array.not_mem_empty _)
  used _ hid := absurd hid (Nat.not_lt_zero _)

theorem Occupied.congr (h : s.Occupied) (htracks : later.tracks = s.tracks)
    (hcounters : later.counters = s.counters) (hslices : later.slices = s.slices) :
    later.Occupied := by
  obtain ⟨strings, tracks, counters, slices⟩ := later
  dsimp only at htracks hcounters hslices
  subst htracks hcounters hslices
  exact ⟨h.counter_track, h.slice_track, h.used⟩

/-! ## Events on one track -/

/-- The later store has a track with this number, kind and key, and no other that is new. -/
structure Opens (s later : Store) (id : Nat) (known : TrackKey) : Prop where
  tracks : s.tracks.toList <+: later.tracks.toList
  known_eq : later.trackKey? id = some known
  others : ∀ other < later.tracks.size, other < s.tracks.size ∨ other = id

theorem opens_internTrack (s : Store) (kind : TrackKind) (key name : String) :
    Opens s (s.internTrack kind key name).2 (s.internTrack kind key name).1 (kind, key) where
  tracks := (s.growsTo_internTrack kind key name).tracks
  known_eq := trackKey?_of_findTrack? (Binary.findTrack?_internTrack s kind key name)
  others other hother := by
    rcases s.internTrack_cases kind key name with ⟨id, -, heq⟩ | ⟨-, strings, handle, -, -, heq⟩
    · rw [heq] at hother
      exact .inl hother
    · rw [heq, Array.size_push] at hother
      rw [heq]
      exact Nat.lt_succ_iff_lt_or_eq.mp hother

/-- The later store has more events, at least one of them on this track and all new ones too. -/
structure Fills (s later : Store) (id : Nat) (known : TrackKey) : Prop
    extends Opens s later id known where
  counters : ∃ added, later.counters.toList = s.counters.toList ++ added
    ∧ ∀ counter ∈ added, counter.track = id ∧ known.1 ≠ .csvSlice
  slices : ∃ added, later.slices.toList = s.slices.toList ++ added
    ∧ ∀ slice ∈ added, slice.track = id ∧ known.1 = .csvSlice
  event : later.HasEvent id

/-- Events on one track keep a store occupied. -/
theorem Occupied.fills (h : s.Occupied) (hfills : Fills s later id known) : later.Occupied := by
  obtain ⟨counters, hcounters, hcounter⟩ := hfills.counters
  obtain ⟨slices, hslices, hslice⟩ := hfills.slices
  refine ⟨fun counter hmem => ?_, fun slice hmem => ?_, fun other hother => ?_⟩
  · rw [← Array.mem_toList_iff, hcounters, List.mem_append, Array.mem_toList_iff] at hmem
    rcases hmem with hold | hnew
    · obtain ⟨key, hkey, hkind⟩ := h.counter_track counter hold
      exact ⟨key, trackKey?_mono hfills.tracks hkey, hkind⟩
    · obtain ⟨htrack, hkind⟩ := hcounter counter hnew
      exact ⟨known, htrack ▸ hfills.known_eq, hkind⟩
  · rw [← Array.mem_toList_iff, hslices, List.mem_append, Array.mem_toList_iff] at hmem
    rcases hmem with hold | hnew
    · obtain ⟨key, hkey, hkind⟩ := h.slice_track slice hold
      exact ⟨key, trackKey?_mono hfills.tracks hkey, hkind⟩
    · obtain ⟨htrack, hkind⟩ := hslice slice hnew
      exact ⟨known, htrack ▸ hfills.known_eq, hkind⟩
  · rcases hfills.others other hother with hold | rfl
    · refine (h.used other hold).imp ?_ ?_
      · rintro ⟨counter, hmem, htrack⟩
        refine ⟨counter, ?_, htrack⟩
        rw [← Array.mem_toList_iff, hcounters]
        exact List.mem_append_left _ (Array.mem_toList_iff.mpr hmem)
      · rintro ⟨slice, hmem, htrack⟩
        refine ⟨slice, ?_, htrack⟩
        rw [← Array.mem_toList_iff, hslices]
        exact List.mem_append_left _ (Array.mem_toList_iff.mpr hmem)
    · exact hfills.event

/-- Intervals that are added are behind those that were there, each on its track. -/
theorem foldl_addInterval (s : Store) (intervals : List Interval) :
    let later := intervals.foldl addInterval s
    later.tracks = s.tracks ∧ later.counters = s.counters
      ∧ ∃ slices, later.slices.toList = s.slices.toList ++ slices
        ∧ slices.map (·.track) = intervals.map (·.track) := by
  induction intervals generalizing s with
  | nil => exact ⟨rfl, rfl, [], (List.append_nil _).symm, rfl⟩
  | cons interval intervals ih =>
      obtain ⟨htracks, hcounters, slices, hslices, hsame⟩ := ih (s.addInterval interval)
      obtain ⟨slice, hslice, htrack⟩ : ∃ slice, (s.addInterval interval).slices
          = s.slices.push slice ∧ slice.track = interval.track := ⟨_, rfl, rfl⟩
      refine ⟨htracks, hcounters, slice :: slices, ?_, ?_⟩
      · rw [List.foldl_cons, hslices, hslice, Array.toList_push, List.append_assoc]
        rfl
      · rw [List.map_cons, List.map_cons, htrack, hsame]

/-- Intervals of an export fill the track that they are on. -/
theorem Opens.fills_intervals (h : Opens s later id known) (hkind : known.1 = .csvSlice)
    (hcounters : later.counters = s.counters) (hslices : later.slices = s.slices)
    {intervals : List Interval} (hsome : intervals ≠ [])
    (htrack : ∀ interval ∈ intervals, interval.track = id) :
    Fills s (intervals.foldl addInterval later) id known := by
  obtain ⟨htracks, hsamples, added, hadded, hsame⟩ := later.foldl_addInterval intervals
  have hon : ∀ slice ∈ added, slice.track = id := by
    intro slice hslice
    have hmem := List.mem_map_of_mem (f := (·.track)) hslice
    rw [hsame, List.mem_map] at hmem
    obtain ⟨interval, hinterval, heq⟩ := hmem
    exact heq ▸ htrack interval hinterval
  have hnonempty : added ≠ [] := by
    rintro rfl
    exact hsome (List.map_eq_nil_iff.mp hsame.symm)
  obtain ⟨slice, hslice⟩ := List.exists_mem_of_ne_nil _ hnonempty
  refine ⟨⟨?_, ?_, ?_⟩, ⟨[], ?_, by simp⟩, ⟨added, ?_, fun slice h => ⟨hon slice h, hkind⟩⟩,
    .inr ⟨slice, ?_, hon slice hslice⟩⟩
  · rw [htracks]
    exact h.tracks
  · exact trackKey?_mono (htracks ▸ List.prefix_refl _) h.known_eq
  · rw [htracks]
    exact h.others
  · rw [hsamples, hcounters, List.append_nil]
  · rw [hadded, hslices]
  · rw [← Array.mem_toList_iff, hadded]
    exact List.mem_append_right _ hslice

end Trace.Store

open Trace (Counter Store)

/-! ## Captures -/

namespace Binary.Reader

theorem trackKind_ne_csvSlice (kind : DataKind) : kind.trackKind ≠ .csvSlice := by
  cases kind <;> exact nofun

/-- The events of a chunk fill the track of the capture. -/
theorem occupied_addEvents {s : Store} (h : s.Occupied) (config : Config) (kind : DataKind)
    (events : List (Int × Float)) : (addEvents config kind s events).Occupied := by
  by_cases hsome : events = []
  · rw [hsome]
    exact h
  rw [addEvents_of_ne_nil hsome]
  have hopens := s.opens_internTrack kind.trackKind trackKey (config.trackName kind)
  have hcounters := s.counters_internTrack kind.trackKind trackKey (config.trackName kind)
  have hslices := s.slices_internTrack kind.trackKind trackKey (config.trackName kind)
  generalize s.internTrack kind.trackKind trackKey (config.trackName kind) = interned
    at hopens hcounters hslices
  obtain ⟨track, later⟩ := interned
  dsimp only at hopens hcounters hslices ⊢
  have hon : ∀ counter ∈ counters track events, counter.track = track := by
    intro counter hmem
    obtain ⟨event, -, rfl⟩ := List.mem_map.mp hmem
    rfl
  have hnonempty : counters track events ≠ [] := mt List.map_eq_nil_iff.mp hsome
  obtain ⟨counter, hcounter⟩ := List.exists_mem_of_ne_nil _ hnonempty
  refine h.fills ⟨⟨hopens.tracks, hopens.known_eq, hopens.others⟩,
    ⟨counters track events, ?_, fun c hc => ⟨hon c hc, trackKind_ne_csvSlice kind⟩⟩,
    ⟨[], ?_, by simp⟩, .inl ⟨counter, ?_, hon counter hcounter⟩⟩
  · rw [← hcounters, Array.toList_append]
  · rw [hslices, List.append_nil]
  · exact Array.mem_append_right _ (List.mem_toArray.mpr hcounter)

theorem occupied_readChunks {s : Store} (h : s.Occupied) (config : Config) (header : Header)
    (cursor : Cursor) (n : Nat) : (readChunks config header cursor s n).2.Occupied := by
  induction n generalizing cursor s with
  | zero => exact h
  | succ n ih =>
      rw [readChunks]
      split
      · exact h
      · split
        · exact h
        · exact ih (occupied_addEvents h config header.dataKind _) _

theorem occupied_finish {reader : Reader} (h : reader.store.Occupied) :
    (ending (finish reader)).2.store.Occupied := by
  unfold finish
  split
  · exact h
  · split
    · exact h
    · next header cursor _ =>
      have hread := occupied_readChunks h reader.config header cursor header.chunkCount
      rcases heq : readChunks reader.config header cursor reader.store header.chunkCount with
        ⟨_ | failure, store⟩
      · rw [heq] at hread
        exact hread
      · rw [heq] at hread
        exact hread

end Binary.Reader

/-! ## Exports -/

namespace Csv

/-- The store is occupied, the tracks that are remembered are those of their analyzers, and the
samples are those that were there before. -/
structure Occupies (samples : Array Counter) (s : Session) : Prop where
  occupied : s.store.Occupied
  remembered : ∀ (analyzer : String) (id : Nat), s.trackIds[analyzer]? = some id →
    s.store.trackKey? id = some (.csvSlice, analyzer)
  counters : s.store.counters = samples

variable {samples : Array Counter} {s : Session}

/-- The track of an analyzer is remembered or asked for, and it is remembered from then on. -/
theorem opens_trackFor {s₁ : Session} {analyzer : String} {track : Nat}
    (hremembered : ∀ (analyzer : String) (id : Nat), s.trackIds[analyzer]? = some id →
      s.store.trackKey? id = some (.csvSlice, analyzer))
    (htrack : s.trackFor analyzer = (track, s₁)) :
    Store.Opens s.store s₁.store track (.csvSlice, analyzer)
      ∧ s₁.store.counters = s.store.counters ∧ s₁.store.slices = s.store.slices
      ∧ ∀ (other : String) (id : Nat), s₁.trackIds[other]? = some id →
        s₁.store.trackKey? id = some (.csvSlice, other) := by
  unfold Session.trackFor at htrack
  split at htrack
  · next known hknown =>
    obtain ⟨rfl, rfl⟩ := Prod.mk.inj htrack
    exact ⟨⟨List.prefix_refl _, hremembered analyzer _ hknown, fun _ => .inl⟩, rfl, rfl,
      hremembered⟩
  · obtain ⟨rfl, rfl⟩ := Prod.mk.inj htrack
    have hopens :=
      s.store.opens_internTrack .csvSlice analyzer (s.config.trackLead ++ analyzer)
    exact ⟨hopens, s.store.counters_internTrack _ _ _, s.store.slices_internTrack _ _ _,
      forall_remembered_insert hopens.known_eq fun other id hother =>
        Store.trackKey?_mono hopens.tracks (hremembered other id hother)⟩

/-- A row fills the track of its analyzer. -/
theorem Occupies.onRow (h : Occupies samples s) (event : Event) (args : List Trace.Arg) :
    Occupies samples (s.onRow event args) := by
  rcases htrack : s.trackFor event.analyzer with ⟨track, s₁⟩
  obtain ⟨hopens, hcounters, hslices, hremembered⟩ := opens_trackFor h.remembered htrack
  have hon : ∀ interval ∈ rowIntervals s₁.bus event args track, interval.track = track := by
    intro interval hinterval
    rcases List.mem_cons.mp hinterval with rfl | htransaction
    · rfl
    · obtain ⟨t, -, rfl⟩ := List.mem_map.mp htransaction
      rfl
  have hfills := hopens.fills_intervals rfl hcounters hslices
    (List.cons_ne_nil _ _ : rowIntervals s₁.bus event args track ≠ []) hon
  obtain ⟨htracks, hsamples, -⟩ :=
    s₁.store.foldl_addInterval (rowIntervals s₁.bus event args track)
  rw [onRow_eq args htrack]
  refine ⟨h.occupied.fills hfills, fun analyzer id hid => ?_,
    (hsamples.trans hcounters).trans h.counters⟩
  exact Store.trackKey?_mono (htracks ▸ List.prefix_refl _) (hremembered analyzer id hid)

/-- A line fills a track, or it adds texts only or nothing. -/
theorem Occupies.takeLine (h : Occupies samples s) (line : String) :
    Occupies samples (ending (Session.takeLine line s)).2 := by
  rw [Session.takeLine_eq]
  cases s.read line with
  | error failure => exact h
  | ok entry =>
      cases entry with
      | blank => exact h
      | header schema =>
          obtain ⟨htracks, hcounters, hslices⟩ := internAll_frame s.store schema.columns
          refine ⟨h.occupied.congr htracks hcounters hslices, fun analyzer id hid => ?_,
            hcounters.trans h.counters⟩
          exact Store.trackKey?_mono (htracks ▸ List.prefix_refl _) (h.remembered analyzer id hid)
      | row event args => exact h.onRow event args

theorem Occupies.readAll (h : Occupies samples s) (lines : List String) :
    Occupies samples (s.readAll lines).2 := by
  induction lines generalizing s with
  | nil => exact h
  | cons line lines ih =>
      have hline := h.takeLine line
      rw [Session.readAll]
      cases hstep : Session.takeLine line s with
      | ok _ s' =>
          rw [hstep] at hline
          exact ih hline
      | error failure s' =>
          rw [hstep] at hline
          exact hline

theorem Occupies.readDecoded (h : Occupies samples s) (lines : List Text.Decoded) :
    Occupies samples (s.readDecoded lines).2 := by
  rw [Session.readDecoded_eq]
  exact h.readAll _

end Csv

/-! ## Imports -/

namespace Import

open Files (Entry Path)

namespace Reader

/-- The reader is of one of these formats and has an occupied store, to which a reader of an export
has added no samples. -/
def Occupies (formats : CaptureFormat → Prop) (samples : Array Counter) : Reader → Prop
  | binary reader => formats .binary ∧ reader.store.Occupied
  | csv reader => formats .csv ∧ Csv.Occupies samples reader.session

variable {formats : CaptureFormat → Prop} {samples : Array Counter}

theorem occupies_push (bytes : List UInt8) :
    Preserves (Occupies formats samples) (push bytes) := by
  intro reader h
  cases reader with
  | binary reader => exact h
  | csv reader =>
      obtain ⟨read, hread⟩ :=
        Csv.Reader.outcome_readLines (reader.lines.push bytes) reader.session
      rw [push, ending_either_csv]
      change formats .csv
        ∧ Csv.Occupies samples (Csv.Reader.outcome (Csv.Reader.push bytes reader)).2
      rw [Csv.Reader.push, hread]
      exact ⟨h.1, h.2.readDecoded read⟩

theorem occupies_finish : Preserves (Occupies formats samples) finish := by
  intro reader h
  cases reader with
  | binary reader =>
      rw [finish, ending_either_binary]
      exact ⟨h.1, Binary.Reader.occupied_finish h.2⟩
  | csv reader =>
      rw [finish, ending_either_csv]
      change formats .csv
        ∧ Csv.Occupies samples (Csv.Reader.outcome (Csv.Reader.finish reader)).2
      rw [Csv.Reader.outcome_finish_left]
      exact ⟨h.1, h.2.readDecoded _⟩

theorem Occupies.store {reader : Reader} (h : reader.Occupies formats samples) :
    reader.store.Occupied ∧ (¬formats .binary → reader.store.counters = samples) := by
  cases reader with
  | binary reader => exact ⟨h.2, fun hnone => absurd h.1 hnone⟩
  | csv reader => exact ⟨h.2.occupied, fun _ => h.2.counters⟩

end Reader

/-- The octets call for one of these formats, if they call for any. -/
def CallsFor (formats : CaptureFormat → Prop) (config : Config) (source : Option String)
    (data : List UInt8) : Prop :=
  ∀ format, resolve config (data.take headSize) source = .ok format → formats format

variable {formats : CaptureFormat → Prop} {config : Config} {source : Option String}
  {data : List UInt8} {s : Store}

theorem occupies_openReader (h : s.Occupied) (hformats : CallsFor formats config source data)
    {reader : Reader} (hopen : openReader config source s data = .ok reader) :
    reader.Occupies formats s.counters := by
  obtain ⟨hformat, rfl⟩ | ⟨hformat, known, rfl⟩ := openReader_cases hopen
  · exact ⟨hformats _ hformat, h⟩
  · exact ⟨hformats _ hformat, h, fun analyzer id hid => by simp at hid, rfl⟩

/-- However the octets are fed, the store stays occupied, and gets no samples but those of
captures. -/
theorem occupied_importWith (h : s.Occupied) (hformats : CallsFor formats config source data)
    {feed : EStateM Failure Reader Unit}
    (hfeed : Reader.Preserves (Reader.Occupies formats s.counters) feed) :
    (importWith config source s data feed).store.Occupied
      ∧ (¬formats .binary → (importWith config source s data feed).store.counters = s.counters) :=
  store_importWith (P := Reader.Occupies formats s.counters)
    (Q := fun later => later.Occupied ∧ (¬formats .binary → later.counters = s.counters))
    ⟨h, fun _ => rfl⟩ (fun _ => occupies_openReader h hformats) hfeed
    fun reader hreader => ⟨hreader.store, (Reader.occupies_finish reader hreader).store⟩

/-- The stores that any number of imports fill, one after the other, each of them whether it fails
or not, where the octets call for one of these formats. -/
inductive Imported (formats : CaptureFormat → Prop) : Store → Prop
  | empty : Imported formats {}
  | bytes {s : Store} (h : Imported formats s) (config : Config) (source : Option String)
      (data : List UInt8) (hformats : CallsFor formats config source data) :
      Imported formats (importBytes config source s data).store
  | file {s : Store} (h : Imported formats s) (memory : Nat → Bool) (config : Config) (path : Path)
      (entry : Entry)
      (hformats : ∀ data, entry = .file data → CallsFor formats config (some path.name) data) :
      Imported formats (importFile memory config path entry s).store

/-- Whatever has been imported, the store is occupied; without captures there are no samples. -/
theorem Imported.occupied (h : Imported formats s) :
    s.Occupied ∧ (¬formats .binary → s.counters = #[]) := by
  induction h with
  | empty => exact ⟨Store.occupied_empty, fun _ => rfl⟩
  | bytes _ config source data hformats ih =>
      obtain ⟨hoccupied, hcounters⟩ := occupied_importWith ih.1 hformats
        (Reader.preserves_feedBytes Reader.occupies_push config data)
      exact ⟨hoccupied, fun hnone => (hcounters hnone).trans (ih.2 hnone)⟩
  | file _ memory config path entry hformats ih =>
      cases entry with
      | missing => exact ih
      | directory => exact ih
      | refused => exact ih
      | file data =>
          obtain ⟨hoccupied, hcounters⟩ := occupied_importWith ih.1 (hformats data rfl)
            (Reader.preserves_feedFile Reader.occupies_push memory config data)
          exact ⟨hoccupied, fun hnone => (hcounters hnone).trans (ih.2 hnone)⟩

end Import

end LogicCapture
