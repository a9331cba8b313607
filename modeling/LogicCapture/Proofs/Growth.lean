import Mathlib
import LogicCapture.Proofs.Handles

/-!
# A store only grows

Whatever calls are made on a store, its handles are those of its texts, its tracks are told apart by
kind and key, and all that its tables refer to is there (`Coherent`). A call adds rows behind those
that are there, if it adds any: what has been stored once reads the same ever after (`GrowsTo`).
Both are kept by each call and hence by every run of calls (`Coherent.calls`, `Calls.growsTo`).
-/

namespace LogicCapture.Trace.Store

variable {s later last : Store} {kind : TrackKind} {key name : String}

/-! ## Calls -/

/-- The stores that come of this one by calls. A handle that comes with an argument has been given
out before; the track of an event may be any number. -/
inductive Calls (start : Store) : Store → Prop
  | none : Calls start start
  | intern {s : Store} (h : Calls start s) (text : String) : Calls start (s.intern text).2
  | track {s : Store} (h : Calls start s) (kind : TrackKind) (key name : String) :
      Calls start (s.internTrack kind key name).2
  | counter {s : Store} (h : Calls start s) (counter : Counter) : Calls start (s.addCounter counter)
  | interval {s : Store} (h : Calls start s) (interval : Interval)
      (hknown : interval.Known s.strings) : Calls start (s.addInterval interval)

theorem Calls.trans (h : Calls s later) (h' : Calls later last) : Calls s last := by
  induction h' with
  | none => exact h
  | intern _ text ih => exact ih.intern text
  | track _ kind key name ih => exact ih.track kind key name
  | counter _ counter ih => exact ih.counter counter
  | interval _ interval hknown ih => exact ih.interval interval hknown

/-- Finding a track changes nothing; a new one is the last, and its name is in the pool. -/
theorem internTrack_cases (s : Store) (kind : TrackKind) (key name : String) :
    (∃ id, s.findTrack? kind key = some id ∧ s.internTrack kind key name = (id, s))
      ∨ s.findTrack? kind key = none ∧ ∃ strings handle, s.strings.GrowsTo strings
        ∧ strings.text? handle = some name ∧ s.internTrack kind key name
          = (s.tracks.size,
              { s with strings, tracks := s.tracks.push { kind, key, name := handle } }) := by
  unfold internTrack
  cases hfound : s.findTrack? kind key with
  | some id => exact Or.inl ⟨id, rfl, rfl⟩
  | none =>
      exact Or.inr ⟨rfl, _, _, s.strings.growsTo_intern name, s.strings.text?_intern name, rfl⟩

/-! ## What is there stays -/

/-- The later store begins with all that this one holds. -/
structure GrowsTo (s later : Store) : Prop where
  strings : s.strings.GrowsTo later.strings
  tracks : s.tracks.toList <+: later.tracks.toList
  counters : s.counters.toList <+: later.counters.toList
  slices : s.slices.toList <+: later.slices.toList

theorem GrowsTo.refl (s : Store) : s.GrowsTo s :=
  ⟨.refl _, List.prefix_refl _, List.prefix_refl _, List.prefix_refl _⟩

theorem GrowsTo.trans (h : s.GrowsTo later) (h' : later.GrowsTo last) : s.GrowsTo last :=
  ⟨h.strings.trans h'.strings, h.tracks.trans h'.tracks, h.counters.trans h'.counters,
    h.slices.trans h'.slices⟩

theorem prefix_push {α : Type} (xs : Array α) (x : α) : xs.toList <+: (xs.push x).toList := by
  rw [Array.toList_push]
  exact List.prefix_append _ _

theorem growsTo_internTrack (s : Store) (kind : TrackKind) (key name : String) :
    s.GrowsTo (s.internTrack kind key name).2 := by
  rcases s.internTrack_cases kind key name with ⟨id, -, heq⟩ | ⟨-, strings, handle, hgrows, -, heq⟩
  · rw [heq]
    exact .refl s
  · rw [heq]
    exact ⟨hgrows, prefix_push _ _, List.prefix_refl _, List.prefix_refl _⟩

theorem growsTo_addInterval {interval : Interval} (h : interval.Known s.strings) :
    s.GrowsTo (s.addInterval interval) := by
  obtain ⟨strings, slice, heq, hgrows, -, -⟩ := addInterval_spec h
  rw [heq]
  exact ⟨hgrows, List.prefix_refl _, List.prefix_refl _, prefix_push _ _⟩

theorem Calls.growsTo (h : Calls s later) : s.GrowsTo later := by
  induction h with
  | none => exact .refl s
  | intern _ text ih =>
      refine ih.trans ⟨?_, List.prefix_refl _, List.prefix_refl _, List.prefix_refl _⟩
      exact StringPool.growsTo_intern _ text
  | track _ kind key name ih => exact ih.trans (growsTo_internTrack _ kind key name)
  | counter _ counter ih =>
      exact ih.trans ⟨.refl _, List.prefix_refl _, prefix_push _ counter, List.prefix_refl _⟩
  | interval _ interval hknown ih => exact ih.trans (growsTo_addInterval hknown)

/-! ## What refers to what -/

/-- Tracks differ in kind or key, and all handles have been given out. -/
structure Coherent (s : Store) : Prop where
  tracks_nodup : (s.tracks.toList.map fun track => (track.kind, track.key)).Nodup
  track_name : ∀ track ∈ s.tracks, track.name < s.strings.texts.size
  slice_inside : ∀ slice ∈ s.slices, slice.Inside s.strings

theorem coherent_empty : Coherent {} where
  tracks_nodup := List.nodup_nil
  track_name _ htrack := absurd htrack (Array.not_mem_empty _)
  slice_inside _ hslice := absurd hslice (Array.not_mem_empty _)

theorem findTrack?_eq_none_iff :
    s.findTrack? kind key = none
      ↔ (kind, key) ∉ s.tracks.toList.map fun track => (track.kind, track.key) := by
  rw [findTrack?, Array.findIdx?_eq_none_iff]
  simp

theorem Coherent.grow (h : s.Coherent) {strings : StringPool} (hgrows : s.strings.GrowsTo strings) :
    Coherent { s with strings } where
  tracks_nodup := h.tracks_nodup
  track_name track htrack := lt_of_lt_of_le (h.track_name track htrack) hgrows.size_le
  slice_inside slice hslice := (h.slice_inside slice hslice).mono hgrows

theorem Coherent.internTrack (h : s.Coherent) (kind : TrackKind) (key name : String) :
    (s.internTrack kind key name).2.Coherent := by
  rcases s.internTrack_cases kind key name with
    ⟨id, -, heq⟩ | ⟨hnew, strings, handle, hgrows, hname, heq⟩
  · rw [heq]
    exact h
  · rw [heq]
    have hold := h.grow hgrows
    refine ⟨?_, ?_, hold.slice_inside⟩
    · rw [Array.toList_push, List.map_append, List.map_singleton, ← List.concat_eq_append]
      exact h.tracks_nodup.concat (findTrack?_eq_none_iff.mp hnew)
    · intro track htrack
      rcases Array.mem_push.mp htrack with hmem | rfl
      · exact hold.track_name track hmem
      · exact StringPool.lt_of_text? hname

theorem Coherent.addInterval (h : s.Coherent) {interval : Interval}
    (hknown : interval.Known s.strings) : (s.addInterval interval).Coherent := by
  obtain ⟨strings, slice, heq, hgrows, -, hmeans⟩ := addInterval_spec hknown
  have hold := h.grow hgrows
  rw [heq]
  refine ⟨hold.tracks_nodup, hold.track_name, ?_⟩
  intro other hother
  rcases Array.mem_push.mp hother with hmem | rfl
  · exact hold.slice_inside other hmem
  · exact hmeans.inside

theorem Coherent.calls (h : s.Coherent) (hcalls : Calls s later) : later.Coherent := by
  induction hcalls with
  | none => exact h
  | intern _ text ih => exact ih.grow (StringPool.growsTo_intern _ text)
  | track _ kind key name ih => exact ih.internTrack kind key name
  | counter _ counter ih => exact ⟨ih.tracks_nodup, ih.track_name, ih.slice_inside⟩
  | interval _ interval hknown ih => exact ih.addInterval hknown

/-- The track that is found is the only one of its kind and key. -/
theorem Coherent.findTrack?_eq_some_iff (h : s.Coherent) {id : Nat} :
    s.findTrack? kind key = some id
      ↔ ∃ track, s.tracks[id]? = some track ∧ track.kind = kind ∧ track.key = key := by
  rw [findTrack?, Array.findIdx?_eq_some_iff_getElem]
  constructor
  · rintro ⟨hid, hmatch, -⟩
    rw [Bool.and_eq_true, beq_iff_eq, beq_iff_eq] at hmatch
    exact ⟨_, Array.getElem?_eq_getElem hid, hmatch⟩
  · rintro ⟨track, htrack, rfl, rfl⟩
    obtain ⟨hid, rfl⟩ := Array.getElem?_eq_some_iff.mp htrack
    refine ⟨hid, by simp, fun j hj hmatch => ?_⟩
    rw [Bool.and_eq_true, beq_iff_eq, beq_iff_eq] at hmatch
    have hnodup := h.tracks_nodup
    rw [List.nodup_iff_getElem?_ne_getElem?] at hnodup
    refine hnodup j id hj (by simpa using hid) ?_
    simp [hid, hj.trans hid, hmatch.1, hmatch.2]

/-! ## Tables -/

theorem prefix_map_zipIdx {α β : Type} {xs ys : List α} {f g : α × Nat → β} (h : xs <+: ys)
    (hsame : ∀ p ∈ xs.zipIdx, g p = f p) : xs.zipIdx.map f <+: ys.zipIdx.map g := by
  obtain ⟨rest, rfl⟩ := h
  rw [List.zipIdx_append, List.map_append, List.map_congr_left hsame]
  exact List.prefix_append _ _

/-- Of lists that are numbered the rows with one number are those of one list. -/
theorem filter_flatMap_zipIdx {α β : Type} {rowsOf : α × Nat → List β} {keep : β → Bool}
    {p : α × Nat} (hown : ∀ row ∈ rowsOf p, keep row = true)
    (hother : ∀ q : α × Nat, q.2 ≠ p.2 → ∀ row ∈ rowsOf q, keep row = false) {xs : List α} {n : Nat}
    (h : p ∈ xs.zipIdx n) : ((xs.zipIdx n).flatMap rowsOf).filter keep = rowsOf p := by
  have hnone : ∀ q : α × Nat, q.2 ≠ p.2 → (rowsOf q).filter keep = [] := fun q hq =>
    List.filter_eq_nil_iff.mpr fun row hrow => by simp [hother q hq row hrow]
  induction xs generalizing n with
  | nil => cases h
  | cons x xs ih =>
      rw [List.zipIdx_cons] at h ⊢
      rw [List.flatMap_cons, List.filter_append]
      rcases List.mem_cons.mp h with rfl | hlater
      · have hrest : ((xs.zipIdx (n + 1)).flatMap rowsOf).filter keep = [] := by
          rw [List.filter_flatMap, List.flatMap_eq_nil_iff]
          intro q hq
          have hge := List.le_snd_of_mem_zipIdx hq
          exact hnone q (by dsimp only; omega)
        rw [List.filter_eq_self.mpr hown, hrest, List.append_nil]
      · have hge := List.le_snd_of_mem_zipIdx hlater
        rw [hnone (x, n) (by dsimp only; omega), List.nil_append, ih hlater]

/-- Rows resolve as before, and further ones come behind them. -/
theorem Coherent.prefix_rows (h : s.Coherent) (hgrows : s.GrowsTo later) :
    s.trackRows <+: later.trackRows ∧ s.sliceRows <+: later.sliceRows
      ∧ s.argRowsBySlice <+: later.argRowsBySlice := by
  have hinside : ∀ slice i, (slice, i) ∈ s.slices.toList.zipIdx →
      later.readingOf slice = s.readingOf slice := fun slice i hmem =>
    readingOf_mono hgrows.strings
      (h.slice_inside slice (Array.mem_toList_iff.mp (List.fst_mem_of_mem_zipIdx hmem)))
  refine ⟨prefix_map_zipIdx hgrows.tracks ?_, prefix_map_zipIdx hgrows.slices ?_,
    prefix_map_zipIdx hgrows.slices ?_⟩
  · rintro ⟨track, i⟩ hmem
    have htrack := Array.mem_toList_iff.mp (List.fst_mem_of_mem_zipIdx hmem)
    dsimp only
    rw [resolve_mono hgrows.strings (h.track_name track htrack)]
  · rintro ⟨slice, i⟩ hmem
    have hreading := hinside slice i hmem
    have hcategory := congrArg Reading.category hreading
    have hname := congrArg Reading.name hreading
    dsimp only [readingOf] at hcategory hname
    dsimp only
    rw [hcategory, hname]
  · rintro ⟨slice, i⟩ hmem
    have hargs := congrArg Reading.args (hinside slice i hmem)
    dsimp only [readingOf] at hargs
    dsimp only [argRowsOf]
    have hrows := congrArg
      (List.map fun arg => ({ slice := i, key := arg.1, value := arg.2 } : ArgRow)) hargs
    rwa [List.map_map, List.map_map] at hrows

theorem Coherent.trackRows_eq (h : s.Coherent) (hgrows : s.GrowsTo later)
    (htracks : later.tracks = s.tracks) : later.trackRows = s.trackRows := by
  refine ((h.prefix_rows hgrows).1.eq_of_length ?_).symm
  rw [trackRows, trackRows, List.length_map, List.length_map, htracks]

theorem map_key_trackRows (s : Store) : s.trackRows.map (fun row => (row.kind, row.key))
    = s.tracks.toList.map fun track => (track.kind, track.key) := by
  rw [← List.zipIdx_map_fst 0 s.tracks.toList, List.map_map, trackRows, List.map_map]
  rfl

theorem map_id_trackRows (s : Store) : s.trackRows.map (·.id) = List.range s.tracks.size := by
  simp [trackRows, Function.comp_def, List.range_eq_range']

theorem prefix_argRows (h : s.argRowsBySlice <+: later.argRowsBySlice) :
    s.argRows <+: later.argRows := by
  obtain ⟨rest, hrest⟩ := h
  rw [argRows, argRows, ← hrest, List.flatten_append]
  exact List.prefix_append _ _

theorem eq_concat_of_isPrefix {α : Type} {xs ys : List α} {y : α} (h : xs <+: ys)
    (hlength : ys.length = xs.length + 1) (hlast : ys[xs.length]? = some y) : ys = xs ++ [y] := by
  obtain ⟨rest, rfl⟩ := h
  rw [List.length_append] at hlength
  obtain ⟨z, rfl⟩ := List.length_eq_one_iff.mp (Nat.add_left_cancel hlength)
  rw [List.getElem?_append_right (Nat.le_refl _), Nat.sub_self] at hlast
  rw [Option.some.inj hlast]

theorem Coherent.trackRows_internTrack (h : s.Coherent) (hnew : s.findTrack? kind key = none)
    (name : String) :
    (s.internTrack kind key name).1 = s.tracks.size
      ∧ (s.internTrack kind key name).2.trackRows
        = s.trackRows ++ [{ id := s.tracks.size, kind, key, name }] := by
  have hrows := (h.prefix_rows (growsTo_internTrack s kind key name)).1
  rcases s.internTrack_cases kind key name with
    ⟨id, hfound, -⟩ | ⟨-, strings, handle, -, hname, heq⟩
  · rw [hnew] at hfound
    cases hfound
  · rw [heq] at hrows ⊢
    refine ⟨rfl, eq_concat_of_isPrefix hrows (by simp [trackRows]) ?_⟩
    simp [trackRows, resolve, hname]

/-- A new slice is one more row, and its arguments come behind all others. -/
theorem Coherent.rows_addInterval (h : s.Coherent) {interval : Interval}
    (hknown : interval.Known s.strings) :
    (s.addInterval interval).sliceRows = s.sliceRows ++ [{
        id := s.slices.size, ts := interval.ts, dur := interval.dur, track := interval.track
        category := interval.category, name := interval.name }]
      ∧ (s.addInterval interval).argRowsBySlice = s.argRowsBySlice ++
        [interval.args.map fun arg => { slice := s.slices.size, key := (arg.reading s.strings).1
                                        value := arg.value }] := by
  obtain ⟨-, hrows, hargs⟩ := h.prefix_rows (growsTo_addInterval hknown)
  obtain ⟨strings, slice, heq, -, htrack, hmeans⟩ := addInterval_spec hknown
  rw [heq] at hrows hargs ⊢
  have hreading :=
    readingOf_of_means (s := { s with strings, slices := s.slices.push slice }) hmeans
  simp only [readingOf, Interval.reading, Reading.mk.injEq] at hreading
  obtain ⟨hts, hdur, hcategory, hname, hstored⟩ := hreading
  constructor
  · refine eq_concat_of_isPrefix hrows (by simp [sliceRows]) ?_
    simp [sliceRows, hts, hdur, htrack, hcategory, hname]
  · refine eq_concat_of_isPrefix hargs (by simp [argRowsBySlice]) ?_
    have hrow := congrArg (List.map fun arg =>
      ({ slice := s.slices.size, key := arg.1, value := arg.2 } : ArgRow)) hstored
    rw [List.map_map, List.map_map] at hrow
    simpa [argRowsBySlice, argRowsOf, Function.comp_def, Arg.reading] using hrow

theorem mem_trackRows {row : TrackRow} :
    row ∈ s.trackRows ↔ ∃ track, s.tracks[row.id]? = some track ∧ row.kind = track.kind
      ∧ row.key = track.key ∧ row.name = s.resolve track.name := by
  obtain ⟨id, kind, key, name⟩ := row
  rw [trackRows, List.mem_map]
  constructor
  · rintro ⟨⟨track, i⟩, hmem, heq⟩
    obtain ⟨rfl, rfl, rfl, rfl⟩ := TrackRow.mk.inj heq
    rw [List.mem_zipIdx_iff_getElem?, Array.getElem?_toList] at hmem
    exact ⟨track, hmem, rfl, rfl, rfl⟩
  · rintro ⟨track, htrack, rfl, rfl, rfl⟩
    refine ⟨(track, id), ?_, rfl⟩
    rwa [List.mem_zipIdx_iff_getElem?, Array.getElem?_toList]

theorem Coherent.findTrack?_iff (h : s.Coherent) (kind : TrackKind) (key : String) (id : Nat) :
    s.findTrack? kind key = some id
      ↔ ∃ row ∈ s.trackRows, row.id = id ∧ row.kind = kind ∧ row.key = key := by
  rw [h.findTrack?_eq_some_iff]
  constructor
  · rintro ⟨track, htrack, rfl, rfl⟩
    exact ⟨{ id, kind := track.kind, key := track.key, name := s.resolve track.name },
      mem_trackRows.mpr ⟨track, htrack, rfl, rfl, rfl⟩, rfl, rfl, rfl⟩
  · rintro ⟨row, hrow, rfl, rfl, rfl⟩
    obtain ⟨track, htrack, hkind, hkey, -⟩ := mem_trackRows.mp hrow
    exact ⟨track, htrack, hkind.symm, hkey.symm⟩

end LogicCapture.Trace.Store
