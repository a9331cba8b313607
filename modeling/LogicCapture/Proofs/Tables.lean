import Mathlib
import LogicCapture.Trace.Tables
import LogicCapture.Proofs.Conversion
import LogicCapture.Proofs.Growth

/-!
# Tables and the store they show

Tables keep numbers, columns and indexes that a store does without. The same calls keep the two in
step: whatever is done to tables that show a store, they show the store to which the same has been
done (`Shows.calls`, `Shows.of_calls`). So the numbers are the places of the rows, each value stands
in its column and the indexes are right after any calls (`Shows.intact`), and what tables read to is
what the store says. Hence they only grow, and each call adds no more than it says
(`calls_intact`).
-/

namespace LogicCapture.Trace

/-! ## The tables of a store -/

def StoredArg.record (slice : Nat) (arg : StoredArg) : ArgRecord :=
  match arg.value with
  | .flag value =>
    { slice, key := arg.key, valueType := "bool", flag := some value, text := none }
  | .text handle =>
    { slice, key := arg.key, valueType := "string", flag := none, text := some handle }

/-- An argument with a column for either type of value. -/
def ArgRow.columns (row : ArgRow) : ArgColumns where
  slice := row.slice
  key := row.key
  valueType := row.value.typeLabel
  flag := row.value.flag?
  text := row.value.text?

namespace Store

/-- The arguments of all intervals as they are kept. -/
def argRecords (s : Store) : List ArgRecord :=
  s.slices.toList.zipIdx.flatMap fun (slice, id) => slice.args.map (StoredArg.record id)

/-- The tables that hold what the store holds, with some index of the tracks. -/
def asTables (s : Store) (trackIds : Std.TreeMap (TrackKind × String) Nat compareTracks) :
    Tables where
  strings := s.strings.texts
  stringIds := s.strings.index
  tracks := s.tracks.mapIdx fun id track =>
    { id, kind := track.kind, key := track.key, name := track.name }
  trackIds
  counters := s.counters
  slices := s.slices.mapIdx fun id slice =>
    { id, ts := slice.ts, dur := slice.dur, track := slice.track, category := slice.category
      name := slice.name }
  args := s.argRecords.toArray

end Store

namespace Tables

/-- The tables are those of the store, and their index finds the tracks that the store finds. -/
structure Shows (t : Tables) (s : Store) : Prop where
  tables : t = s.asTables t.trackIds
  trackIds : ∀ kind key, t.trackIds[(kind, key)]? = s.findTrack? kind key

/-! ## The same calls -/

def withPool (t : Tables) (pool : StringPool) : Tables :=
  { t with strings := pool.texts, stringIds := pool.index }

theorem intern_withPool (t : Tables) (pool : StringPool) (text : String) :
    (t.withPool pool).intern text = ((pool.intern text).1, t.withPool (pool.intern text).2) := by
  unfold intern
  dsimp only [withPool]
  cases h : pool.index[text]? with
  | some handle => rw [StringPool.intern_of_text? ((pool.index_iff text handle).mp h)]
  | none =>
      obtain ⟨hhandle, htexts, hindex⟩ := StringPool.intern_of_absent h
      rw [hhandle, htexts, hindex]

theorem internOption_withPool (t : Tables) (pool : StringPool) (text : Option String) :
    (t.withPool pool).internOption text
      = ((Store.internOption pool text).1, t.withPool (Store.internOption pool text).2) := by
  cases text with
  | none => rfl
  | some text =>
      rw [internOption, intern_withPool]
      rfl

theorem addArg_withPool (t : Tables) (pool : StringPool) (slice : Nat) (arg : Arg) :
    addArg slice (t.withPool pool) arg
      = withPool { t with args := t.args.push ((Store.internArg pool arg).1.record slice) }
        (Store.internArg pool arg).2 := by
  obtain ⟨key, value, keyHandle⟩ := arg
  unfold addArg Store.internArg
  cases keyHandle <;> cases value <;> simp only [intern_withPool] <;> rfl

theorem foldl_addArg_withPool (t : Tables) (pool : StringPool) (slice : Nat) (args : List Arg) :
    args.foldl (addArg slice) (t.withPool pool)
      = withPool { t with args :=
            t.args ++ ((Store.internArgs pool args).1.map (StoredArg.record slice)).toArray }
          (Store.internArgs pool args).2 := by
  induction args generalizing t pool with
  | nil => simp [Store.internArgs]
  | cons arg args ih =>
      rw [List.foldl_cons, addArg_withPool, ih, Store.internArgs]
      simp

section Step

variable {t : Tables} {s : Store}

theorem shows_empty : Shows {} {} where
  tables := rfl
  trackIds kind key := by simp [Store.findTrack?]

theorem Shows.intern (h : t.Shows s) (text : String) :
    (t.intern text).1 = (s.intern text).1 ∧ (t.intern text).2.Shows (s.intern text).2 := by
  have hintern := intern_withPool t s.strings text
  have hpool : t.withPool s.strings = t := by
    rw [h.tables]
    rfl
  rw [hpool] at hintern
  rw [hintern]
  refine ⟨rfl, ?_, h.trackIds⟩
  conv_lhs => rw [h.tables]
  rfl

theorem compareTracks_eq_iff {a b : TrackKind × String} : compareTracks a b = .eq ↔ a = b := by
  have hlabel : ∀ kind kind' : TrackKind, kind.label = kind'.label ↔ kind = kind' := by
    intro kind kind'
    cases kind <;> cases kind' <;> decide
  rw [compareTracks, compareLex_eq_eq, compareOn, compareOn, compare_eq_iff_eq, compare_eq_iff_eq,
    hlabel, Prod.ext_iff]

theorem Shows.size_tracks (h : t.Shows s) : t.tracks.size = s.tracks.size := by
  rw [h.tables]
  exact Array.size_mapIdx

theorem Shows.internTrack (h : t.Shows s) (kind : TrackKind) (key name : String) :
    (t.internTrack kind key name).1 = (s.internTrack kind key name).1
      ∧ (t.internTrack kind key name).2.Shows (s.internTrack kind key name).2 := by
  unfold Tables.internTrack Store.internTrack
  rw [h.trackIds]
  cases hfound : s.findTrack? kind key with
  | some id => exact ⟨rfl, h⟩
  | none =>
      have hsize := h.size_tracks
      obtain ⟨hhandle, hshows⟩ := h.intern name
      dsimp only
      refine ⟨hsize, ?_, fun kind' key' => ?_⟩
      · conv_lhs => rw [hshows.tables]
        rw [Store.asTables, Store.asTables, hhandle, hsize, Array.mapIdx_push]
        rfl
      · have hold := hshows.trackIds kind' key'
        dsimp only
        rw [Std.TreeMap.getElem?_insert, hold, hsize, Store.findTrack?, Store.findTrack?,
          Store.tracks_intern, Array.findIdx?_push]
        by_cases hsame : (kind, key) = (kind', key')
        · obtain ⟨rfl, rfl⟩ := Prod.mk.inj hsame
          rw [Store.findTrack?] at hfound
          rw [if_pos (compareTracks_eq_iff.mpr rfl), hfound, Option.none_or, if_pos (by simp)]
        · rw [if_neg (mt compareTracks_eq_iff.mp hsame), if_neg, Option.or_none]
          simpa using hsame

theorem Shows.addCounter (h : t.Shows s) (counter : Counter) :
    (t.addCounter counter).Shows (s.addCounter counter) := by
  refine ⟨?_, h.trackIds⟩
  conv_lhs => rw [h.tables]
  rfl

theorem argRecords_push (s : Store) (strings : StringPool) (slice : Slice) :
    Store.argRecords { s with strings, slices := s.slices.push slice }
      = s.argRecords ++ slice.args.map (StoredArg.record s.slices.size) := by
  rw [Store.argRecords, Store.argRecords, Array.toList_push, List.zipIdx_append,
    List.flatMap_append]
  simp

theorem addInterval_asTables (s : Store)
    (trackIds : Std.TreeMap (TrackKind × String) Nat compareTracks) (interval : Interval) :
    (s.asTables trackIds).addInterval interval = (s.addInterval interval).asTables trackIds := by
  have hsize : (s.asTables trackIds).slices.size = s.slices.size := Array.size_mapIdx
  have hpool : s.asTables trackIds = (s.asTables trackIds).withPool s.strings := rfl
  unfold Tables.addInterval
  rw [hsize, hpool, internOption_withPool]
  dsimp only
  rw [intern_withPool]
  dsimp only
  rcases hcategory : Store.internOption s.strings interval.category with ⟨category, strings⟩
  rcases hname : strings.intern interval.name with ⟨name, strings'⟩
  rw [Store.addInterval, hcategory]
  dsimp only
  rw [hname]
  dsimp only
  refine (foldl_addArg_withPool { s.asTables trackIds with
    slices := (s.asTables trackIds).slices.push {
      id := s.slices.size, ts := interval.ts, dur := interval.dur, track := interval.track
      category, name } } strings' s.slices.size interval.args).trans ?_
  rw [Store.asTables, Store.asTables, argRecords_push, Array.mapIdx_push, ← List.append_toArray]
  rfl

theorem Shows.addInterval (h : t.Shows s) (interval : Interval) :
    (t.addInterval interval).Shows (s.addInterval interval) := by
  have hadded := addInterval_asTables s t.trackIds interval
  rw [← h.tables] at hadded
  rw [hadded]
  exact ⟨rfl, h.trackIds⟩

theorem Shows.strings (h : t.Shows s) : t.strings = s.strings.texts := by
  rw [h.tables]
  rfl

theorem Shows.size_slices (h : t.Shows s) : t.slices.size = s.slices.size := by
  rw [h.tables]
  exact Array.size_mapIdx

end Step

/-- All handles that the arguments of the interval come with have been given out. -/
def Knows (t : Tables) (interval : Interval) : Prop :=
  ∀ arg ∈ interval.args, ∀ handle, arg.keyHandle = some handle → handle < t.strings.size

theorem Shows.knows_iff {t : Tables} {s : Store} (h : t.Shows s) {interval : Interval} :
    t.Knows interval ↔ interval.Known s.strings := by
  rw [Knows, h.strings]
  rfl

/-- The tables that come of these by calls. A handle that comes with an argument has been given out
before; the track of an event may be any number. -/
inductive Calls (start : Tables) : Tables → Prop
  | none : Calls start start
  | intern {t : Tables} (h : Calls start t) (text : String) : Calls start (t.intern text).2
  | track {t : Tables} (h : Calls start t) (kind : TrackKind) (key name : String) :
      Calls start (t.internTrack kind key name).2
  | counter {t : Tables} (h : Calls start t) (counter : Counter) :
      Calls start (t.addCounter counter)
  | interval {t : Tables} (h : Calls start t) (interval : Interval) (hknows : t.Knows interval) :
      Calls start (t.addInterval interval)

section Simulation

variable {t later : Tables} {s last : Store}

/-- Whatever calls are made on tables, the same calls on the store that they show lead to one that
they still show. -/
theorem Shows.calls (h : t.Shows s) (hcalls : Calls t later) :
    ∃ last, Store.Calls s last ∧ later.Shows last := by
  induction hcalls with
  | none => exact ⟨s, .none, h⟩
  | intern _ text ih =>
      obtain ⟨last, hlast, hshows⟩ := ih
      exact ⟨_, hlast.intern text, (hshows.intern text).2⟩
  | track _ kind key name ih =>
      obtain ⟨last, hlast, hshows⟩ := ih
      exact ⟨_, hlast.track kind key name, (hshows.internTrack kind key name).2⟩
  | counter _ counter ih =>
      obtain ⟨last, hlast, hshows⟩ := ih
      exact ⟨_, hlast.counter counter, hshows.addCounter counter⟩
  | interval _ interval hknows ih =>
      obtain ⟨last, hlast, hshows⟩ := ih
      exact ⟨_, hlast.interval interval (hshows.knows_iff.mp hknows), hshows.addInterval interval⟩

/-- And whatever calls are made on a store, tables that show it can follow. -/
theorem Shows.of_calls (h : t.Shows s) (hcalls : Store.Calls s last) :
    ∃ later, Calls t later ∧ later.Shows last := by
  induction hcalls with
  | none => exact ⟨t, .none, h⟩
  | intern _ text ih =>
      obtain ⟨later, hlater, hshows⟩ := ih
      exact ⟨_, hlater.intern text, (hshows.intern text).2⟩
  | track _ kind key name ih =>
      obtain ⟨later, hlater, hshows⟩ := ih
      exact ⟨_, hlater.track kind key name, (hshows.internTrack kind key name).2⟩
  | counter _ counter ih =>
      obtain ⟨later, hlater, hshows⟩ := ih
      exact ⟨_, hlater.counter counter, hshows.addCounter counter⟩
  | interval _ interval hknown ih =>
      obtain ⟨later, hlater, hshows⟩ := ih
      exact ⟨_, hlater.interval interval (hshows.knows_iff.mpr hknown),
        hshows.addInterval interval⟩

end Simulation

/-! ## What refers to what -/

/-- The pool has no text twice, and its index is its inverse. Tracks and intervals are numbered by
their places; no two tracks have the same kind and key, and by these their index finds them and
nothing else. Arguments belong to intervals that are there, interval by interval, and have a value
in the column that their type names and in no other. All handles are those of texts. -/
structure Intact (t : Tables) : Prop where
  strings_nodup : t.strings.toList.Nodup
  stringIds_iff : ∀ (text : String) (handle : Nat),
    t.stringIds[text]? = some handle ↔ t.strings[handle]? = some text
  track_id : t.tracks.toList.map (·.id) = List.range t.tracks.size
  track_nodup : (t.tracks.toList.map fun row => (row.kind, row.key)).Nodup
  trackIds_iff : ∀ (kind : TrackKind) (key : String) (id : Nat), t.trackIds[(kind, key)]? = some id
    ↔ ∃ row ∈ t.tracks, row.id = id ∧ row.kind = kind ∧ row.key = key
  slice_id : t.slices.toList.map (·.id) = List.range t.slices.size
  arg_slice : ∀ row ∈ t.args, row.slice < t.slices.size
  arg_sorted : t.args.toList.Pairwise fun row row' => row.slice ≤ row'.slice
  arg_value : ∀ row ∈ t.args,
    row.valueType = "bool" ∧ row.flag.isSome ∧ row.text = none
      ∨ row.valueType = "string" ∧ row.flag = none ∧ row.text.isSome
  track_name : ∀ row ∈ t.tracks, row.name < t.strings.size
  slice_category : ∀ row ∈ t.slices, ∀ handle, row.category = some handle →
    handle < t.strings.size
  slice_name : ∀ row ∈ t.slices, row.name < t.strings.size
  arg_key : ∀ row ∈ t.args, row.key < t.strings.size
  arg_text : ∀ row ∈ t.args, ∀ handle, row.text = some handle → handle < t.strings.size

theorem mem_argRecords {s : Store} {row : ArgRecord} :
    row ∈ s.argRecords ↔ ∃ (id : Nat) (hid : id < s.slices.size),
      ∃ arg ∈ s.slices[id].args, arg.record id = row := by
  rw [Store.argRecords, List.mem_flatMap]
  constructor
  · rintro ⟨⟨slice, id⟩, hmem, hrow⟩
    rw [List.mem_zipIdx_iff_getElem?, Array.getElem?_toList, Array.getElem?_eq_some_iff] at hmem
    obtain ⟨hid, hslice⟩ := hmem
    dsimp only at hid hslice
    subst hslice
    obtain ⟨arg, harg, rfl⟩ := List.mem_map.mp hrow
    exact ⟨id, hid, arg, harg, rfl⟩
  · rintro ⟨id, hid, arg, harg, rfl⟩
    refine ⟨(s.slices[id], id), ?_, List.mem_map_of_mem harg⟩
    rw [List.mem_zipIdx_iff_getElem?, Array.getElem?_toList, Array.getElem?_eq_getElem hid]

@[simp] theorem slice_record (slice : Nat) (arg : StoredArg) :
    (arg.record slice).slice = slice := by
  unfold StoredArg.record
  split <;> rfl

@[simp] theorem key_record (slice : Nat) (arg : StoredArg) : (arg.record slice).key = arg.key := by
  unfold StoredArg.record
  split <;> rfl

theorem inside_of_mem_argRecords {s : Store} (hs : s.Coherent) {row : ArgRecord}
    (h : row ∈ s.argRecords) : row.key < s.strings.texts.size
      ∧ ∀ handle, row.text = some handle → handle < s.strings.texts.size := by
  obtain ⟨id, hid, arg, harg, rfl⟩ := mem_argRecords.mp h
  have hinside := hs.slice_inside _ (Array.getElem_mem hid)
  refine ⟨?_, fun handle hhandle => hinside.value arg harg handle ?_⟩
  · rw [key_record]
    exact hinside.key arg harg
  · unfold StoredArg.record at hhandle
    split at hhandle
    · cases hhandle
    · next heq => rw [heq, Option.some.inj hhandle]

theorem argRecords_sorted (s : Store) :
    s.argRecords.Pairwise fun row row' => row.slice ≤ row'.slice := by
  rw [Store.argRecords, List.pairwise_flatMap]
  constructor
  · rintro ⟨slice, id⟩ -
    rw [List.pairwise_map]
    exact List.pairwise_of_forall_mem_list fun _ _ _ _ => by simp
  · rw [List.pairwise_iff_getElem]
    intro i j hi hj hij row hrow row' hrow'
    obtain ⟨arg, -, rfl⟩ := List.mem_map.mp hrow
    obtain ⟨arg', -, rfl⟩ := List.mem_map.mp hrow'
    simpa [List.getElem_zipIdx] using hij.le

section Rows

variable (s : Store) (trackIds : Std.TreeMap (TrackKind × String) Nat compareTracks)

theorem tracks_asTables : (s.asTables trackIds).tracks.toList
    = s.tracks.toList.zipIdx.map fun (track, id) =>
      { id, kind := track.kind, key := track.key, name := track.name } := by
  rw [Store.asTables, Array.toList_mapIdx, List.mapIdx_eq_zipIdx_map]

theorem slices_asTables : (s.asTables trackIds).slices.toList
    = s.slices.toList.zipIdx.map fun (slice, id) =>
      { id, ts := slice.ts, dur := slice.dur, track := slice.track, category := slice.category
        name := slice.name } := by
  rw [Store.asTables, Array.toList_mapIdx, List.mapIdx_eq_zipIdx_map]

variable {s trackIds}

theorem mem_tracks_asTables {row : TrackRecord} : row ∈ (s.asTables trackIds).tracks ↔
    ∃ track, s.tracks[row.id]? = some track ∧ row.kind = track.kind ∧ row.key = track.key
      ∧ row.name = track.name := by
  obtain ⟨id, kind, key, name⟩ := row
  rw [← Array.mem_toList_iff, tracks_asTables, List.mem_map]
  constructor
  · rintro ⟨⟨track, i⟩, hmem, heq⟩
    obtain ⟨rfl, rfl, rfl, rfl⟩ := TrackRecord.mk.inj heq
    rw [List.mem_zipIdx_iff_getElem?, Array.getElem?_toList] at hmem
    exact ⟨track, hmem, rfl, rfl, rfl⟩
  · rintro ⟨track, htrack, rfl, rfl, rfl⟩
    refine ⟨(track, id), ?_, rfl⟩
    rwa [List.mem_zipIdx_iff_getElem?, Array.getElem?_toList]

theorem exists_slice_of_mem {row : SliceRecord} (h : row ∈ (s.asTables trackIds).slices) :
    ∃ slice ∈ s.slices, row.category = slice.category ∧ row.name = slice.name := by
  rw [← Array.mem_toList_iff, slices_asTables, List.mem_map] at h
  obtain ⟨⟨slice, id⟩, hmem, rfl⟩ := h
  exact ⟨slice, Array.mem_toList_iff.mp (List.fst_mem_of_mem_zipIdx hmem), rfl, rfl⟩

end Rows

theorem intact_asTables {s : Store} (hs : s.Coherent)
    {trackIds : Std.TreeMap (TrackKind × String) Nat compareTracks}
    (hids : ∀ kind key, trackIds[(kind, key)]? = s.findTrack? kind key) :
    (s.asTables trackIds).Intact where
  strings_nodup := s.strings.nodup_texts
  stringIds_iff := s.strings.index_iff
  track_id := by
    rw [tracks_asTables, List.map_map]
    simp [Store.asTables, Function.comp_def, List.range_eq_range']
  track_nodup := by
    have hkeys := hs.tracks_nodup
    rw [← List.zipIdx_map_fst 0 s.tracks.toList, List.map_map] at hkeys
    rwa [tracks_asTables, List.map_map]
  trackIds_iff kind key id := by
    change trackIds[(kind, key)]? = some id ↔ _
    rw [hids, hs.findTrack?_eq_some_iff]
    constructor
    · rintro ⟨track, htrack, rfl, rfl⟩
      exact ⟨{ id, kind := track.kind, key := track.key, name := track.name },
        mem_tracks_asTables.mpr ⟨track, htrack, rfl, rfl, rfl⟩, rfl, rfl, rfl⟩
    · rintro ⟨row, hrow, rfl, rfl, rfl⟩
      obtain ⟨track, htrack, hkind, hkey, -⟩ := mem_tracks_asTables.mp hrow
      exact ⟨track, htrack, hkind.symm, hkey.symm⟩
  slice_id := by
    rw [slices_asTables, List.map_map]
    simp [Store.asTables, Function.comp_def, List.range_eq_range']
  arg_slice row hrow := by
    obtain ⟨id, hid, arg, -, rfl⟩ := mem_argRecords.mp (List.mem_toArray.mp hrow)
    simpa [Store.asTables] using hid
  arg_sorted := argRecords_sorted s
  arg_value row hrow := by
    obtain ⟨id, hid, ⟨key, value⟩, -, rfl⟩ := mem_argRecords.mp (List.mem_toArray.mp hrow)
    cases value with
    | flag value => exact .inl ⟨rfl, rfl, rfl⟩
    | text handle => exact .inr ⟨rfl, rfl, rfl⟩
  track_name row hrow := by
    obtain ⟨track, htrack, -, -, hname⟩ := mem_tracks_asTables.mp hrow
    rw [hname]
    exact hs.track_name track (Array.mem_of_getElem? htrack)
  slice_category row hrow handle hhandle := by
    obtain ⟨slice, hslice, hcategory, -⟩ := exists_slice_of_mem hrow
    exact (hs.slice_inside slice hslice).category handle (hcategory ▸ hhandle)
  slice_name row hrow := by
    obtain ⟨slice, hslice, -, hname⟩ := exists_slice_of_mem hrow
    exact hname ▸ (hs.slice_inside slice hslice).name
  arg_key row hrow := (inside_of_mem_argRecords hs (List.mem_toArray.mp hrow)).1
  arg_text row hrow := (inside_of_mem_argRecords hs (List.mem_toArray.mp hrow)).2

theorem Shows.intact {t : Tables} {s : Store} (h : t.Shows s) (hs : s.Coherent) : t.Intact := by
  have hfound := h.trackIds
  rw [h.tables]
  exact intact_asTables hs hfound

/-! ## Reading the tables -/

section Reading

variable {s : Store} (hs : s.Coherent)
  {trackIds : Std.TreeMap (TrackKind × String) Nat compareTracks}

theorem textOf_asTables {handle : Nat} (h : handle < s.strings.texts.size) :
    (s.asTables trackIds).textOf handle = .ok (s.resolve handle) := by
  obtain ⟨text, htext⟩ := StringPool.exists_text? h
  rw [Store.resolve_of_text? htext]
  exact textAt_eq_ok_iff.mpr htext

theorem textOf?_asTables {handle : Option Nat}
    (h : ∀ n, handle = some n → n < s.strings.texts.size) :
    (s.asTables trackIds).textOf? handle = .ok (handle.map s.resolve) := by
  cases handle with
  | none => rfl
  | some handle =>
      rw [textOf?, textOf_asTables (h handle rfl)]
      rfl

include hs

theorem trackRows_asTables : (s.asTables trackIds).trackRows = .ok s.trackRows := by
  rw [Tables.trackRows, tracks_asTables, List.mapM_map, Store.trackRows]
  refine mapM_eq_ok_map ?_
  rintro ⟨track, id⟩ hmem
  have hname := hs.track_name track (Array.mem_toList_iff.mp (List.fst_mem_of_mem_zipIdx hmem))
  dsimp only [Function.comp_apply]
  rw [textOf_asTables hname]
  rfl

theorem sliceRows_asTables : (s.asTables trackIds).sliceRows = .ok s.sliceRows := by
  rw [Tables.sliceRows, slices_asTables, List.mapM_map, Store.sliceRows]
  refine mapM_eq_ok_map ?_
  rintro ⟨slice, id⟩ hmem
  have hinside := hs.slice_inside slice
    (Array.mem_toList_iff.mp (List.fst_mem_of_mem_zipIdx hmem))
  dsimp only [Function.comp_apply]
  rw [textOf?_asTables hinside.category, textOf_asTables hinside.name]
  rfl

theorem argRows_asTables : (s.asTables trackIds).argRows = .ok (s.argRows.map ArgRow.columns) := by
  have hrows : s.argRows.map ArgRow.columns = s.argRecords.map fun row =>
      { slice := row.slice, key := s.resolve row.key, valueType := row.valueType, flag := row.flag
        text := row.text.map s.resolve } := by
    rw [Store.argRows, Store.argRowsBySlice, List.map_flatten, List.map_map, ← List.flatMap_def,
      Store.argRecords, List.map_flatMap]
    refine List.flatMap_congr ?_
    rintro ⟨slice, id⟩ -
    simp only [Function.comp_apply, Store.argRowsOf, List.map_map]
    refine List.map_congr_left fun arg _ => ?_
    obtain ⟨key, value⟩ := arg
    cases value <;> rfl
  rw [hrows]
  refine mapM_eq_ok_map fun row hrow => ?_
  obtain ⟨hkey, htext⟩ := inside_of_mem_argRecords hs hrow
  obtain ⟨slice, key, valueType, flag, text⟩ := row
  dsimp only at hkey htext ⊢
  rw [textOf_asTables hkey, textOf?_asTables htext]
  rfl

omit hs in
/-- The arguments of an interval are found by its number. -/
theorem filter_argRecords {id : Nat} (hid : id < s.slices.size) :
    s.argRecords.filter (fun arg => (arg.slice : Int) == id)
      = s.slices[id].args.map (StoredArg.record id) := by
  have hmem : (s.slices[id], id) ∈ s.slices.toList.zipIdx := by
    rw [List.mem_zipIdx_iff_getElem?, Array.getElem?_toList, Array.getElem?_eq_getElem hid]
  refine Store.filter_flatMap_zipIdx (fun arg harg => ?_) (fun q hq arg harg => ?_) hmem
  · obtain ⟨stored, -, rfl⟩ := List.mem_map.mp harg
    simp
  · obtain ⟨stored, -, rfl⟩ := List.mem_map.mp harg
    simpa using hq

theorem argsOf_asTables {id : Nat} (hid : id < s.slices.size) :
    (s.asTables trackIds).argsOf id = .ok ((s.readingOf s.slices[id]).args.foldl
      (fun args arg => Store.putArg args arg.1 (some arg.2)) []) := by
  have hinside := hs.slice_inside _ (Array.getElem_mem hid)
  have hargs : (s.asTables trackIds).args.toList = s.argRecords := rfl
  rw [argsOf, hargs, filter_argRecords hid, List.foldlM_map, Store.readingOf, List.foldl_map]
  refine foldlM_eq_ok (fun arg harg args => ?_) []
  have hkey := hinside.key arg harg
  have hvalue := hinside.value arg harg
  obtain ⟨key, value⟩ := arg
  rw [key_record, textOf_asTables hkey]
  cases value with
  | flag value => rfl
  | text handle =>
      have htext : (s.asTables trackIds).textOf handle = .ok (s.resolve handle) :=
        textOf_asTables (hvalue handle rfl)
      change (do
        let value ← Option.map ArgValue.text <$> some <$> (s.asTables trackIds).textOf handle
        pure (Store.putArg args (s.resolve key) value) : Except Failure _) = _
      rw [htext]
      rfl

end Reading

/-! ## What calls add -/

/-- What the first rows read is the beginning of what the second ones read. -/
def Extends {α : Type} (rows later : Except Failure (List α)) : Prop :=
  ∃ front behind, rows = .ok front ∧ later = .ok (front ++ behind)

/-- All rows and all handles of these tables are in the later ones and read as before. -/
structure GrowsTo (t later : Tables) : Prop where
  strings : t.strings.toList <+: later.strings.toList
  stringIds : ∀ (text : String) (handle : Nat),
    t.stringIds[text]? = some handle → later.stringIds[text]? = some handle
  tracks : t.tracks.toList <+: later.tracks.toList
  trackIds : ∀ (kind : TrackKind) (key : String) (id : Nat),
    t.trackIds[(kind, key)]? = some id → later.trackIds[(kind, key)]? = some id
  counters : t.counters.toList <+: later.counters.toList
  slices : t.slices.toList <+: later.slices.toList
  args : t.args.toList <+: later.args.toList
  trackRows : Extends t.trackRows later.trackRows
  sliceRows : Extends t.sliceRows later.sliceRows
  argRows : Extends t.argRows later.argRows
  argsOf : ∀ id < t.slices.size, ∃ args, t.argsOf id = .ok args ∧ later.argsOf id = .ok args

def keyOf (t : Tables) (arg : Arg) : String :=
  (arg.keyHandle.bind fun handle => t.strings[handle]?).getD arg.key

/-- What a call on these tables adds. A text or a track that is there already adds nothing, whatever
name the track is asked for with; a new one is the last of its table. An interval reads as it was
given, and so do its arguments, of which the last one of a key counts. -/
structure Appends (t : Tables) : Prop where
  intern_known : ∀ text handle, t.strings[handle]? = some text → t.intern text = (handle, t)
  intern_new : ∀ text, text ∉ t.strings →
    (t.intern text).1 = t.strings.size ∧ (t.intern text).2.strings = t.strings.push text
  track_known : ∀ row ∈ t.tracks, ∀ name, t.internTrack row.kind row.key name = (row.id, t)
  track_new : ∀ kind key, (∀ row ∈ t.tracks, ¬(row.kind = kind ∧ row.key = key)) → ∀ name,
    (t.internTrack kind key name).1 = t.tracks.size
      ∧ ∃ rows, t.trackRows = .ok rows ∧ (t.internTrack kind key name).2.trackRows
        = .ok (rows ++ [{ id := t.tracks.size, kind, key, name }])
  slice_row : ∀ interval, t.Knows interval →
    ∃ rows, t.sliceRows = .ok rows ∧ (t.addInterval interval).sliceRows = .ok (rows ++ [{
      id := t.slices.size, ts := interval.ts, dur := interval.dur, track := interval.track
      category := interval.category, name := interval.name }])
  arg_rows : ∀ interval, t.Knows interval →
    ∃ rows, t.argRows = .ok rows ∧ (t.addInterval interval).argRows
      = .ok (rows ++ interval.args.map fun arg =>
        { slice := t.slices.size, key := t.keyOf arg, valueType := arg.value.typeLabel
          flag := arg.value.flag?, text := arg.value.text? })
  argsOf_last : ∀ interval, t.Knows interval →
    (t.addInterval interval).argsOf t.slices.size
      = .ok (interval.args.foldl
        (fun args arg => Store.putArg args (t.keyOf arg) (some arg.value)) [])

section Calls

variable {t later : Tables} {s last : Store}

theorem Shows.trackRows (h : t.Shows s) (hs : s.Coherent) : t.trackRows = .ok s.trackRows := by
  rw [h.tables]
  exact trackRows_asTables hs

theorem Shows.sliceRows (h : t.Shows s) (hs : s.Coherent) : t.sliceRows = .ok s.sliceRows := by
  rw [h.tables]
  exact sliceRows_asTables hs

theorem Shows.argRows (h : t.Shows s) (hs : s.Coherent) :
    t.argRows = .ok (s.argRows.map ArgRow.columns) := by
  rw [h.tables]
  exact argRows_asTables hs

theorem Shows.argsOf (h : t.Shows s) (hs : s.Coherent) {id : Nat} (hid : id < s.slices.size) :
    t.argsOf id = .ok ((s.readingOf s.slices[id]).args.foldl
      (fun args arg => Store.putArg args arg.1 (some arg.2)) []) := by
  rw [h.tables]
  exact argsOf_asTables hs hid

theorem prefix_argRecords (h : s.slices.toList <+: last.slices.toList) :
    s.argRecords <+: last.argRecords := by
  obtain ⟨rest, hrest⟩ := h
  rw [Store.argRecords, Store.argRecords, ← hrest, List.zipIdx_append, List.flatMap_append]
  exact List.prefix_append _ _

theorem Shows.growsTo (h : t.Shows s) (hs : s.Coherent) (h' : later.Shows last)
    (hlast : last.Coherent) (hgrows : s.GrowsTo last) : t.GrowsTo later := by
  have hintact := h.intact hs
  have hintact' := h'.intact hlast
  obtain ⟨⟨tracks, htracks⟩, ⟨slices, hslices⟩, hargs⟩ := hs.prefix_rows hgrows
  obtain ⟨args, hargs⟩ := Store.prefix_argRows hargs
  have hrecords : t.tracks.toList <+: later.tracks.toList := by
    rw [h.tables, h'.tables, tracks_asTables, tracks_asTables]
    exact Store.prefix_map_zipIdx hgrows.tracks fun _ _ => rfl
  constructor
  case strings =>
    rw [h.strings, h'.strings]
    exact hgrows.strings
  case stringIds =>
    intro text handle hhandle
    rw [hintact.stringIds_iff, h.strings] at hhandle
    rw [hintact'.stringIds_iff, h'.strings]
    exact hgrows.strings.text? hhandle
  case tracks => exact hrecords
  case trackIds =>
    intro kind key id hid
    obtain ⟨row, hrow, heq⟩ := (hintact.trackIds_iff kind key id).mp hid
    exact (hintact'.trackIds_iff kind key id).mpr
      ⟨row, Array.mem_toList_iff.mp (hrecords.subset (Array.mem_toList_iff.mpr hrow)), heq⟩
  case counters =>
    rw [h.tables, h'.tables]
    exact hgrows.counters
  case slices =>
    rw [h.tables, h'.tables, slices_asTables, slices_asTables]
    exact Store.prefix_map_zipIdx hgrows.slices fun _ _ => rfl
  case args =>
    rw [h.tables, h'.tables]
    exact prefix_argRecords hgrows.slices
  case trackRows => exact ⟨_, tracks, h.trackRows hs, htracks ▸ h'.trackRows hlast⟩
  case sliceRows => exact ⟨_, slices, h.sliceRows hs, hslices ▸ h'.sliceRows hlast⟩
  case argRows =>
    refine ⟨_, args.map ArgRow.columns, h.argRows hs, ?_⟩
    rw [h'.argRows hlast, ← hargs, List.map_append]
  case argsOf =>
    intro id hid
    rw [h.size_slices] at hid
    obtain ⟨rest, hrest⟩ := hgrows.slices
    have hsame : last.slices[id]? = s.slices[id]? := by
      rw [← Array.getElem?_toList, ← hrest, List.getElem?_append_left (by simpa using hid),
        Array.getElem?_toList]
    obtain ⟨hid', hslice⟩ := Array.getElem?_eq_some_iff.mp
      (hsame.trans (Array.getElem?_eq_getElem hid))
    refine ⟨_, h.argsOf hs hid, ?_⟩
    rw [h'.argsOf hlast hid', hslice,
      Store.readingOf_mono hgrows.strings (hs.slice_inside _ (Array.getElem_mem hid))]

theorem Shows.appends (h : t.Shows s) (hs : s.Coherent) : t.Appends := by
  have hintact := h.intact hs
  have hkey : ∀ arg, t.keyOf arg = (arg.reading s.strings).1 := by
    intro arg
    rw [keyOf, h.strings]
    rfl
  constructor
  case intern_known =>
    intro text handle htext
    rw [Tables.intern, (hintact.stringIds_iff text handle).mpr htext]
  case intern_new =>
    intro text hnew
    have hnone : t.stringIds[text]? = none := by
      rw [Option.eq_none_iff_forall_ne_some]
      intro handle hhandle
      exact hnew (Array.mem_of_getElem? ((hintact.stringIds_iff text handle).mp hhandle))
    rw [Tables.intern, hnone]
    exact ⟨rfl, rfl⟩
  case track_known =>
    intro row hrow name
    have hfound := (hintact.trackIds_iff row.kind row.key row.id).mpr ⟨row, hrow, rfl, rfl, rfl⟩
    rw [Tables.internTrack, hfound]
  case track_new =>
    intro kind key hnew name
    have hnone : s.findTrack? kind key = none := by
      rw [Option.eq_none_iff_forall_ne_some]
      intro id hid
      rw [← h.trackIds] at hid
      obtain ⟨row, hrow, -, hsame⟩ := (hintact.trackIds_iff kind key id).mp hid
      exact hnew row hrow hsame
    obtain ⟨hid, hrows⟩ := hs.trackRows_internTrack hnone name
    obtain ⟨hanswer, hshows⟩ := h.internTrack kind key name
    refine ⟨hanswer.trans (hid.trans h.size_tracks.symm), _, h.trackRows hs, ?_⟩
    rw [hshows.trackRows (hs.internTrack kind key name), hrows, h.size_tracks]
  case slice_row =>
    intro interval hknows
    have hknown := h.knows_iff.mp hknows
    refine ⟨_, h.sliceRows hs, ?_⟩
    rw [(h.addInterval interval).sliceRows (hs.addInterval hknown),
      (hs.rows_addInterval hknown).1, h.size_slices]
  case arg_rows =>
    intro interval hknows
    have hknown := h.knows_iff.mp hknows
    refine ⟨_, h.argRows hs, ?_⟩
    rw [(h.addInterval interval).argRows (hs.addInterval hknown), Store.argRows,
      (hs.rows_addInterval hknown).2, List.flatten_append, List.flatten_singleton,
      List.map_append, List.map_map, h.size_slices]
    simp only [hkey]
    rfl
  case argsOf_last =>
    intro interval hknows
    have hknown := h.knows_iff.mp hknows
    obtain ⟨strings, slice, heq, -, -, hmeans⟩ := Store.addInterval_spec hknown
    have hlast : s.slices.size < (s.addInterval interval).slices.size := by
      rw [Store.size_slices_addInterval]
      exact Nat.lt_succ_self _
    have hslice : (s.addInterval interval).slices[s.slices.size] = slice := by simp [heq]
    rw [h.size_slices, (h.addInterval interval).argsOf (hs.addInterval hknown) hlast, hslice, heq,
      Store.readingOf_of_means hmeans]
    simp only [hkey, Interval.reading, List.foldl_map]
    rfl

end Calls

/-- Whatever calls are made on empty tables, they are intact at any moment, and each further call
adds to them no more than it says. What has been stored by then stays in its place and reads the
same, whatever calls follow. The same calls on an empty store lead to the one that is shown. -/
theorem calls_intact {t later : Tables} (ht : Calls {} t) (hlater : Calls t later) :
    t.Intact ∧ t.Appends ∧ t.GrowsTo later
      ∧ ∃ s last, Store.Calls {} s ∧ t.Shows s ∧ Store.Calls s last ∧ later.Shows last := by
  obtain ⟨s, hs, hshows⟩ := shows_empty.calls ht
  obtain ⟨last, hlast, hshows'⟩ := hshows.calls hlater
  have hcoherent := Store.coherent_empty.calls hs
  exact ⟨hshows.intact hcoherent, hshows.appends hcoherent,
    hshows.growsTo hcoherent hshows' (hcoherent.calls hlast) hlast.growsTo, s, last, hs, hshows,
    hlast, hshows'⟩

/-- An interval whose second argument comes with the handle of its key, and whose third has the same
key. -/
def ackInterval : Interval where
  ts := 5
  track := 7
  category := some "data"
  name := "data"
  dur := 1
  args := [{ key := "data", value := .text "0x01" },
    { key := "", value := .flag true, keyHandle := some 0 }, { key := "ack", value := .flag false }]

/-- The interval is stored with three arguments and reads with two, also when a track has been added
behind it. -/
theorem calls_intact_ackInterval :
    let t := (intern {} "ack").2
    let later := ((t.addInterval ackInterval).internTrack .csvSlice "I2C" "ack").2
    Calls {} t ∧ Calls t later
      ∧ later.argsOf 0 = .ok [("data", some (.text "0x01")), ("ack", some (.flag false))]
      ∧ later.args = #[
          { slice := 0, key := 1, valueType := "string", flag := none, text := some 2 },
          { slice := 0, key := 0, valueType := "bool", flag := some true, text := none },
          { slice := 0, key := 0, valueType := "bool", flag := some false, text := none }] := by
  have ht : Calls {} (intern {} "ack").2 := Calls.none.intern "ack"
  have hknows : (intern {} "ack").2.Knows ackInterval := by
    intro arg harg handle hhandle
    simp only [ackInterval, List.mem_cons, List.not_mem_nil, or_false] at harg
    rcases harg with rfl | rfl | rfl
    · cases hhandle
    · rw [← Option.some.inj hhandle]
      decide +kernel
    · cases hhandle
  have hadded := Calls.none.interval ackInterval hknows
  have hlater := hadded.track .csvSlice "I2C" "ack"
  obtain ⟨-, happends, -⟩ := calls_intact ht hlater
  obtain ⟨-, -, hgrows, -⟩ := calls_intact (ht.interval ackInterval hknows)
    (Calls.none.track .csvSlice "I2C" "ack")
  refine ⟨ht, hlater, ?_, by decide +kernel⟩
  obtain ⟨args, hargs, hsame⟩ := hgrows.argsOf 0 (by decide +kernel)
  have hlast := happends.argsOf_last ackInterval hknows
  refine hsame.trans (hargs.symm.trans (hlast.trans (congrArg Except.ok ?_)))
  decide +kernel

end Tables

end LogicCapture.Trace
