import Mathlib
import LogicCapture.Proofs.Events
import LogicCapture.Proofs.Growth

/-!
# What is added to a store

Calls on a store can be said without handles and numbers of tracks: which tracks have been asked
for, and which samples and intervals have been stored on the tracks of a kind and a key. What is
said so does not depend on the store (`Additions`), only what becomes of it does: a track that is
there already is taken as it is, texts that are there keep their handles, and numbers go on behind
those that have been given out (`Adds`). Additions one after another are additions again
(`Adds.trans`). So whatever adds the same to two stores leaves in one of them, behind what it held,
what it leaves in the other if that was empty (`Adds.beside`).
-/

namespace LogicCapture.Trace

/-! ## Additions -/

abbrev TrackKey := TrackKind × String

/-- A track as it is asked for, with the name it gets if it is new. -/
structure TrackLabel where
  kind : TrackKind
  key : String
  name : String
  deriving Repr, DecidableEq

def TrackLabel.trackKey (label : TrackLabel) : TrackKey :=
  (label.kind, label.key)

/-- What calls add, with no handle and no number of a track in it. -/
structure Additions where
  tracks : List TrackLabel := []
  counters : List (TrackKey × Int × Float) := []
  intervals : List (TrackKey × Reading) := []

def Additions.append (first second : Additions) : Additions where
  tracks := first.tracks ++ second.tracks
  counters := first.counters ++ second.counters
  intervals := first.intervals ++ second.intervals

/-- The labels with one more, unless there is one with its kind and key. -/
def enrolLabel (labels : List TrackLabel) (label : TrackLabel) : List TrackLabel :=
  if label.trackKey ∈ labels.map TrackLabel.trackKey then labels else labels ++ [label]

/-- Labels that are enrolled behind others are those that are enrolled by themselves, without those
whose kind and key are there. -/
theorem foldl_enrolLabel (labels added : List TrackLabel) :
    added.foldl enrolLabel labels = labels ++ (added.foldl enrolLabel []).filter fun label =>
      label.trackKey ∉ labels.map TrackLabel.trackKey := by
  induction added using List.reverseRecOn with
  | nil => simp
  | append_singleton added label ih =>
      rw [List.foldl_append, List.foldl_append, List.foldl_cons, List.foldl_cons, List.foldl_nil,
        List.foldl_nil, ih]
      generalize added.foldl enrolLabel [] = alone
      by_cases hthere : label.trackKey ∈ labels.map TrackLabel.trackKey
      · have hboth : label.trackKey ∈ (labels ++ alone.filter fun label =>
            label.trackKey ∉ labels.map TrackLabel.trackKey).map TrackLabel.trackKey := by
          rw [List.map_append]
          exact List.mem_append_left _ hthere
        rw [enrolLabel, if_pos hboth, enrolLabel]
        split
        · rfl
        · rw [List.filter_append, List.filter_cons_of_neg (by simpa using hthere), List.filter_nil,
            List.append_nil]
      · -- a label with this key would have passed the filter
        have hboth : label.trackKey ∈ (labels ++ alone.filter fun label =>
              label.trackKey ∉ labels.map TrackLabel.trackKey).map TrackLabel.trackKey
            ↔ label.trackKey ∈ alone.map TrackLabel.trackKey := by
          rw [List.map_append, List.mem_append, or_iff_right hthere, List.mem_map, List.mem_map]
          refine exists_congr fun other => ?_
          rw [List.mem_filter, and_assoc]
          refine and_congr_right fun _ => and_iff_right_of_imp fun hsame => ?_
          rw [hsame]
          exact decide_eq_true hthere
        rw [enrolLabel, enrolLabel]
        by_cases halone : label.trackKey ∈ alone.map TrackLabel.trackKey
        · rw [if_pos (hboth.mpr halone), if_pos halone]
        · rw [if_neg (mt hboth.mp halone), if_neg halone, List.filter_append,
            List.filter_cons_of_pos (by simpa using hthere), List.filter_nil, List.append_assoc]

namespace Store

open Binary (findTrack?_internTrack internTrack_of_findTrack?)

variable {s later last : Store} {kind : TrackKind} {key name : String} {number : Int}

/-! ## Tracks by kind and key -/

def trackKey? (s : Store) : Int → Option TrackKey
  | .ofNat id => s.tracks[id]?.map fun track => (track.kind, track.key)
  | .negSucc _ => none

def labels (s : Store) : List TrackLabel :=
  s.trackRows.map fun row => { kind := row.kind, key := row.key, name := row.name }

theorem map_trackKey_labels (s : Store) : s.labels.map TrackLabel.trackKey
    = s.tracks.toList.map fun track => (track.kind, track.key) := by
  rw [labels, List.map_map, ← map_key_trackRows]
  rfl

theorem findTrack?_eq_none_iff_labels :
    s.findTrack? kind key = none ↔ (kind, key) ∉ s.labels.map TrackLabel.trackKey := by
  rw [map_trackKey_labels, findTrack?_eq_none_iff]

theorem trackKey?_of_findTrack? {id : Nat} (h : s.findTrack? kind key = some id) :
    s.trackKey? id = some (kind, key) := by
  obtain ⟨hid, hmatch, -⟩ := Array.findIdx?_eq_some_iff_getElem.mp h
  rw [Bool.and_eq_true, beq_iff_eq, beq_iff_eq] at hmatch
  show s.tracks[id]?.map _ = _
  rw [Array.getElem?_eq_getElem hid, Option.map_some, hmatch.1, hmatch.2]

theorem trackKey?_mono (h : s.tracks.toList <+: later.tracks.toList) {known : TrackKey}
    (hknown : s.trackKey? number = some known) : later.trackKey? number = some known := by
  cases number with
  | negSucc n => cases hknown
  | ofNat id =>
      obtain ⟨track, htrack, rfl⟩ := Option.map_eq_some_iff.mp hknown
      obtain ⟨rest, hrest⟩ := h
      have hlater : later.tracks[id]? = some track := by
        rw [← Array.getElem?_toList, ← hrest, List.getElem?_append_left, Array.getElem?_toList,
          htrack]
        simpa using (Array.getElem?_eq_some_iff.mp htrack).1
      show later.tracks[id]?.map _ = _
      rw [hlater, Option.map_some]

theorem GrowsTo.trackKey? (h : s.GrowsTo later) {known : TrackKey}
    (hknown : s.trackKey? number = some known) : later.trackKey? number = some known :=
  trackKey?_mono h.tracks hknown

theorem Coherent.findTrack?_mono (h : later.Coherent) (hgrows : s.GrowsTo later) {id : Nat}
    (hfound : s.findTrack? kind key = some id) : later.findTrack? kind key = some id := by
  have hkey := hgrows.trackKey? (trackKey?_of_findTrack? hfound)
  obtain ⟨track, htrack, heq⟩ := Option.map_eq_some_iff.mp hkey
  obtain ⟨hkind, hkey⟩ := Prod.mk.inj heq
  exact h.findTrack?_eq_some_iff.mpr ⟨track, htrack, hkind, hkey⟩

/-! ## What becomes of additions -/

def CounterIs (s : Store) (counter : Counter) (entry : TrackKey × Int × Float) : Prop :=
  s.trackKey? counter.track = some entry.1 ∧ (counter.ts, counter.value) = entry.2

def SliceIs (s : Store) (slice : Slice) (entry : TrackKey × Reading) : Prop :=
  s.trackKey? slice.track = some entry.1 ∧ slice.Means s.strings entry.2

/-- The later store comes of this one by calls that add this. -/
structure Adds (s : Store) (added : Additions) (later : Store) : Prop where
  calls : Calls s later
  labels : later.labels = added.tracks.foldl enrolLabel s.labels
  counters : ∃ counters, later.counters.toList = s.counters.toList ++ counters
    ∧ List.Forall₂ later.CounterIs counters added.counters
  slices : ∃ slices, later.slices.toList = s.slices.toList ++ slices
    ∧ List.Forall₂ later.SliceIs slices added.intervals

theorem adds_refl (s : Store) : Adds s {} s where
  calls := .none
  labels := rfl
  counters := ⟨[], (List.append_nil _).symm, .nil⟩
  slices := ⟨[], (List.append_nil _).symm, .nil⟩

theorem Adds.trans {first second : Additions} (h : Adds s first later)
    (h' : Adds later second last) : Adds s (first.append second) last := by
  have hgrows := h'.calls.growsTo
  obtain ⟨counters, hcounters, hentries⟩ := h.counters
  obtain ⟨counters', hcounters', hentries'⟩ := h'.counters
  obtain ⟨slices, hslices, hreadings⟩ := h.slices
  obtain ⟨slices', hslices', hreadings'⟩ := h'.slices
  refine ⟨h.calls.trans h'.calls, ?_, ⟨counters ++ counters', ?_, ?_⟩,
    ⟨slices ++ slices', ?_, ?_⟩⟩
  · rw [h'.labels, h.labels, Additions.append, List.foldl_append]
  · rw [hcounters', hcounters, List.append_assoc]
  · exact List.rel_append (hentries.imp fun _ _ hentry =>
      ⟨hgrows.trackKey? hentry.1, hentry.2⟩) hentries'
  · rw [hslices', hslices, List.append_assoc]
  · exact List.rel_append (hreadings.imp fun _ _ hreading =>
      ⟨hgrows.trackKey? hreading.1, hreading.2.mono hgrows.strings⟩) hreadings'

theorem Coherent.adds_intern (h : s.Coherent) (text : String) : Adds s {} (s.intern text).2 where
  calls := Calls.none.intern text
  labels := by
    have hrows := h.trackRows_eq (Calls.none.intern text).growsTo rfl
    rw [Store.labels, hrows]
    rfl
  counters := ⟨[], (List.append_nil _).symm, .nil⟩
  slices := ⟨[], (List.append_nil _).symm, .nil⟩

/-- A track that is asked for is there afterwards under the number that is given. -/
theorem Coherent.adds_internTrack (h : s.Coherent) (kind : TrackKind) (key name : String) :
    Adds s { tracks := [{ kind, key, name }] } (s.internTrack kind key name).2
      ∧ (s.internTrack kind key name).2.trackKey? (s.internTrack kind key name).1
        = some (kind, key) := by
  have hcalls : Calls s _ := Calls.none.track kind key name
  have hknown := trackKey?_of_findTrack? (findTrack?_internTrack s kind key name)
  refine ⟨⟨hcalls, ?_, ⟨[], ?_, .nil⟩, ⟨[], ?_, .nil⟩⟩, hknown⟩
  · show _ = if (kind, key) ∈ s.labels.map TrackLabel.trackKey then s.labels else s.labels ++ [_]
    split
    · next hthere =>
      have hsome := mt findTrack?_eq_none_iff_labels.mp (not_not.mpr hthere)
      obtain ⟨id, hfound⟩ := Option.ne_none_iff_exists'.mp hsome
      rw [internTrack_of_findTrack? hfound]
    · next hnew =>
      rw [labels, (h.trackRows_internTrack (findTrack?_eq_none_iff_labels.mpr hnew) name).2,
        List.map_append]
      rfl
  · rw [counters_internTrack, List.append_nil]
  · rw [slices_internTrack, List.append_nil]

theorem adds_counters {known : TrackKey} {id : Nat} (hknown : s.trackKey? id = some known)
    (events : List (Int × Float)) :
    Adds s { counters := events.map fun event => (known, event) }
      (events.foldl (fun s (ts, value) => s.addCounter { ts, value, track := id }) s) := by
  induction events generalizing s with
  | nil => exact adds_refl s
  | cons event events ih =>
      obtain ⟨ts, value⟩ := event
      have hfirst : Adds s { counters := [(known, ts, value)] }
          (s.addCounter { ts, value, track := id }) := by
        refine ⟨Calls.none.counter _, rfl, ⟨[_], Array.toList_push, .cons ⟨hknown, rfl⟩ .nil⟩,
          ⟨[], (List.append_nil _).symm, .nil⟩⟩
      exact hfirst.trans (ih hknown)

theorem Coherent.adds_interval (h : s.Coherent) {interval : Interval}
    (hinterval : interval.Known s.strings) {known : TrackKey}
    (hknown : s.trackKey? interval.track = some known) :
    Adds s { intervals := [(known, interval.reading s.strings)] } (s.addInterval interval) := by
  have hcalls := Calls.none.interval interval hinterval
  obtain ⟨strings, slice, heq, hgrows, htrack, hmeans⟩ := addInterval_spec hinterval
  refine ⟨hcalls, ?_, ⟨[], (List.append_nil _).symm, .nil⟩, ⟨[slice], ?_, .cons ⟨?_, ?_⟩ .nil⟩⟩
  · rw [labels, h.trackRows_eq hcalls.growsTo rfl]
    rfl
  · rw [heq, Array.toList_push]
  · rw [htrack]
    exact hcalls.growsTo.trackKey? hknown
  · rw [heq]
    exact hmeans

/-- Intervals on one track. -/
theorem Coherent.adds_intervals (h : s.Coherent) {known : TrackKey} {id : Nat}
    (hknown : s.trackKey? id = some known) {intervals : List Interval}
    (hintervals : ∀ interval ∈ intervals, interval.track = id ∧ interval.Known s.strings) :
    Adds s { intervals := intervals.map fun interval => (known, interval.reading s.strings) }
      (intervals.foldl Store.addInterval s) := by
  induction intervals generalizing s with
  | nil => exact adds_refl s
  | cons interval intervals ih =>
      obtain ⟨⟨htrack, hinterval⟩, hrest⟩ := List.forall_mem_cons.mp hintervals
      have hfirst := h.adds_interval hinterval (htrack ▸ hknown)
      have hgrows := hfirst.calls.growsTo
      have hmore := ih (h.calls hfirst.calls) (hgrows.trackKey? hknown) fun other hother =>
        ⟨(hrest other hother).1, (hrest other hother).2.mono hgrows.strings⟩
      have hreadings : (intervals.map fun other =>
            (known, other.reading (s.addInterval interval).strings))
          = intervals.map fun other => (known, other.reading s.strings) :=
        List.map_congr_left fun other hother =>
          congrArg (Prod.mk known) ((hrest other hother).2.reading_eq hgrows.strings)
      rw [hreadings] at hmore
      exact hfirst.trans hmore

/-! ## The same additions to an empty store -/

/-- Both numbers have tracks, which are of the same kind and key. -/
def SameTrack (s other : Store) (number number' : Int) : Prop :=
  ∃ known, s.trackKey? number = some known ∧ other.trackKey? number' = some known

/-- Behind what a store held, a later one holds what a fresh one holds: the tracks that were
missing, and all samples, intervals and arguments on the tracks of the same kinds and keys, with the
numbers of intervals going on. A track that was there is still found where it was. -/
structure Beside (s later fresh : Store) : Prop where
  grows : s.GrowsTo later
  labels : later.labels = s.labels ++ fresh.labels.filter fun label =>
    (s.findTrack? label.kind label.key).isNone
  track_kept : ∀ kind key id, s.findTrack? kind key = some id →
    later.findTrack? kind key = some id
  counters : ∃ counters, later.counters.toList = s.counters.toList ++ counters
    ∧ List.Forall₂ (fun counter counter' => counter = { counter' with track := counter.track }
      ∧ SameTrack later fresh counter.track counter'.track) counters fresh.counters.toList
  slices : ∃ rows, later.sliceRows = s.sliceRows ++ rows
    ∧ List.Forall₂ (fun row row' =>
      row = { row' with id := s.slices.size + row'.id, track := row.track }
      ∧ SameTrack later fresh row.track row'.track) rows fresh.sliceRows
  args : later.argRows = s.argRows ++ fresh.argRows.map fun row =>
    { row with slice := s.slices.size + row.slice }

theorem forall₂_common {α β γ : Type} {R : α → γ → Prop} {S : β → γ → Prop} {xs : List α}
    {ys : List β} {zs : List γ} (h : List.Forall₂ R xs zs) (h' : List.Forall₂ S ys zs) :
    List.Forall₂ (fun x y => ∃ z, R x z ∧ S y z) xs ys := by
  induction h generalizing ys with
  | nil =>
      cases h'
      exact .nil
  | cons hhead _ ih =>
      cases h' with
      | cons hhead' htail => exact .cons ⟨_, hhead, hhead'⟩ (ih htail)

theorem forall₂_zipIdx {α β : Type} {R : α → β → Prop} {xs : List α} {ys : List β}
    (h : List.Forall₂ R xs ys) (n k : Nat) :
    List.Forall₂ (fun p q => R p.1 q.1 ∧ p.2 = n + q.2) (xs.zipIdx (n + k)) (ys.zipIdx k) := by
  induction h generalizing k with
  | nil => exact .nil
  | cons hhead _ ih => exact .cons ⟨hhead, rfl⟩ (ih (k + 1))

theorem map_zipIdx_append {α β : Type} {xs ys zs : List α} {f g : α × Nat → β} (h : zs = xs ++ ys)
    (hbegin : xs.zipIdx.map f <+: zs.zipIdx.map g) :
    zs.zipIdx.map g = xs.zipIdx.map f ++ (ys.zipIdx xs.length).map g := by
  subst h
  obtain ⟨rest, hrest⟩ := hbegin
  rw [List.zipIdx_append, List.map_append, Nat.zero_add] at hrest ⊢
  rw [(List.append_inj hrest (by simp)).1]

theorem argRowsOf_eq (s : Store) (id : Nat) (slice : Slice) : s.argRowsOf id slice
    = (s.readingOf slice).args.map fun arg => { slice := id, key := arg.1, value := arg.2 } := by
  rw [argRowsOf, readingOf, List.map_map]
  rfl

/-- Slices that say the same under numbers that go on. -/
def SameSlice (later fresh : Store) (n : Nat) (p q : Slice × Nat) : Prop :=
  (later.readingOf p.1 = fresh.readingOf q.1 ∧ SameTrack later fresh p.1.track q.1.track)
    ∧ p.2 = n + q.2

theorem sliceRows_beside {fresh : Store} {slices : List Slice} {n : Nat}
    (h : List.Forall₂ (SameSlice later fresh n) (slices.zipIdx n) fresh.slices.toList.zipIdx) :
    List.Forall₂ (fun (row row' : SliceRow) =>
        row = { row' with id := n + row'.id, track := row.track }
          ∧ SameTrack later fresh row.track row'.track)
      ((slices.zipIdx n).map fun (slice, id) =>
        { id, ts := slice.ts, dur := slice.dur, track := slice.track
          category := slice.category.map later.resolve, name := later.resolve slice.name })
      fresh.sliceRows := by
  rw [sliceRows, List.forall₂_map_left_iff, List.forall₂_map_right_iff]
  refine h.imp ?_
  rintro ⟨slice, id⟩ ⟨slice', id'⟩ ⟨⟨hsame, htrack⟩, hid⟩
  obtain rfl : id = n + id' := hid
  simp only [readingOf, Reading.mk.injEq] at hsame
  obtain ⟨hts, hdur, hcategory, hname, -⟩ := hsame
  refine ⟨?_, htrack⟩
  simp only [hts, hdur, hcategory, hname]

theorem argRows_beside {fresh : Store} {slices : List Slice} {n : Nat}
    (h : List.Forall₂ (SameSlice later fresh n) (slices.zipIdx n) fresh.slices.toList.zipIdx) :
    (slices.zipIdx n).map (fun (slice, id) => later.argRowsOf id slice)
      = fresh.argRowsBySlice.map (List.map fun row => { row with slice := n + row.slice }) := by
  rw [argRowsBySlice, List.map_map, ← List.forall₂_eq_eq_eq, List.forall₂_map_left_iff,
    List.forall₂_map_right_iff]
  refine h.imp ?_
  rintro ⟨slice, id⟩ ⟨slice', id'⟩ ⟨⟨hsame, -⟩, hid⟩
  obtain rfl : id = n + id' := hid
  show later.argRowsOf (n + id') slice = (fresh.argRowsOf id' slice').map _
  rw [argRowsOf_eq, argRowsOf_eq, hsame, List.map_map]
  rfl

/-- What adds the same to a store and to an empty one leaves the one beside the other. -/
theorem Adds.beside {fresh : Store} {added : Additions} (hs : s.Coherent)
    (h : Adds s added later) (hfresh : Adds {} added fresh) : Beside s later fresh := by
  have hgrows := h.calls.growsTo
  obtain ⟨-, hsliceRows, hargRows⟩ := hs.prefix_rows hgrows
  obtain ⟨counters, hcounters, hentries⟩ := h.counters
  obtain ⟨counters', hcounters', hentries'⟩ := hfresh.counters
  obtain ⟨slices, hslices, hreadings⟩ := h.slices
  obtain ⟨slices', hslices', hreadings'⟩ := hfresh.slices
  have hboth : List.Forall₂ (SameSlice later fresh s.slices.size)
      (slices.zipIdx s.slices.size) fresh.slices.toList.zipIdx := by
    have hsame : List.Forall₂ (fun slice slice' => later.readingOf slice = fresh.readingOf slice'
        ∧ SameTrack later fresh slice.track slice'.track) slices fresh.slices.toList := by
      rw [hslices']
      refine (forall₂_common hreadings hreadings').imp ?_
      rintro slice slice' ⟨entry, ⟨hkey, hmeans⟩, hkey', hmeans'⟩
      exact ⟨(readingOf_of_means hmeans).trans (readingOf_of_means hmeans').symm,
        entry.1, hkey, hkey'⟩
    exact forall₂_zipIdx hsame s.slices.size 0
  refine ⟨hgrows, ?_, fun kind key id => (hs.calls h.calls).findTrack?_mono hgrows,
    ⟨counters, hcounters, ?_⟩, ⟨_, map_zipIdx_append hslices hsliceRows, ?_⟩, ?_⟩
  · have hmissing : ∀ label : TrackLabel, decide (label.trackKey ∉ s.labels.map TrackLabel.trackKey)
        = (s.findTrack? label.kind label.key).isNone := by
      intro label
      rw [Bool.eq_iff_iff, decide_eq_true_iff, Option.isNone_iff_eq_none,
        findTrack?_eq_none_iff_labels]
      rfl
    rw [h.labels, hfresh.labels, foldl_enrolLabel]
    simp only [hmissing]
    rfl
  · rw [hcounters']
    refine (forall₂_common hentries hentries').imp ?_
    rintro ⟨ts, value, track⟩ ⟨ts', value', track'⟩ ⟨entry, ⟨hkey, hsame⟩, hkey', hsame'⟩
    obtain ⟨rfl, rfl⟩ := Prod.mk.inj (hsame.trans hsame'.symm)
    exact ⟨rfl, entry.1, hkey, hkey'⟩
  · exact sliceRows_beside hboth
  · have hrows : later.argRowsBySlice = s.argRowsBySlice ++ fresh.argRowsBySlice.map
        (List.map fun row => { row with slice := s.slices.size + row.slice }) :=
      (map_zipIdx_append hslices hargRows).trans (congrArg _ (argRows_beside hboth))
    rw [argRows, hrows, List.flatten_append, argRows, argRows, List.map_flatten]

end Store

end LogicCapture.Trace
