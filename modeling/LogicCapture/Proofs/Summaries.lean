import Mathlib
import LogicCapture.Proofs.Joins
import LogicCapture.Proofs.Occupancy
import LogicCapture.Proofs.Transactions

/-!
# Summaries account for every track and every event

The summary of a trace is put together from two tables of statistics, one of samples and one of
intervals, which are joined with the tracks (`summary_eq_joined`). Such a join gives a track two
rows if it has both samples and intervals, gives it a row without numbers if it has neither, and
loses events whose track is missing. Of stores that imports have filled none of this is so: their
tracks are occupied. Hence the summary has one row for each track, in the order of their numbers,
and its numbers of events are those of the store (`summary_accounts`).
-/

namespace LogicCapture

namespace Trace

/-! ## Least and greatest -/

section Extremes

variable {α : Type} {xs : List α} {p : α → Bool} {first : α} {rest : List α}

theorem mem_map_filter {f : α → Int} {n : Int} :
    n ∈ (xs.filter p).map f ↔ ∃ x ∈ xs, p x = true ∧ f x = n := by
  simp only [List.mem_map, List.mem_filter, and_assoc]

theorem isLeast_foldl_min (h : xs.filter p = first :: rest) (f : α → Int) :
    IsLeast {n | ∃ x ∈ xs, p x = true ∧ f x = n} ((rest.map f).foldl min (f first)) := by
  have hmin : ((xs.filter p).map f).min? = some ((rest.map f).foldl min (f first)) := by
    rw [h, List.map_cons, List.min?_cons']
  obtain ⟨hmem, hle⟩ := List.min?_eq_some_iff.mp hmin
  exact ⟨mem_map_filter.mp hmem, fun n hn => hle n (mem_map_filter.mpr hn)⟩

theorem isGreatest_foldl_max (h : xs.filter p = first :: rest) (f : α → Int) :
    IsGreatest {n | ∃ x ∈ xs, p x = true ∧ f x = n} ((rest.map f).foldl max (f first)) := by
  have hmax : ((xs.filter p).map f).max? = some ((rest.map f).foldl max (f first)) := by
    rw [h, List.map_cons, List.max?_cons']
  obtain ⟨hmem, hle⟩ := List.max?_eq_some_iff.mp hmax
  exact ⟨mem_map_filter.mp hmem, fun n hn => hle n (mem_map_filter.mpr hn)⟩

end Extremes

/-! ## What statistics say -/

/-- The statistics are those of the rows on one track: how many there are, the first time at which
one begins and the last at which one ends. -/
structure Describes {α : Type} (rows : List α) (track start finish : α → Int) (id : Int)
    (stats : TrackStats) : Prop where
  events : stats.events = rows.countP (track · == id)
  events_pos : 1 ≤ stats.events
  span : ∃ first last, stats.span = some (first, last)
    ∧ IsLeast {ts | ∃ row ∈ rows, track row = id ∧ start row = ts} first
    ∧ IsGreatest {ts | ∃ row ∈ rows, track row = id ∧ finish row = ts} last

theorem describes_of_filter {α : Type} {rows : List α} {track : α → Int} {id : Int} {first : α}
    {rest : List α} (h : rows.filter (track · == id) = first :: rest) (start finish : α → Int)
    (range : Option (Float × Float)) :
    Describes rows track start finish id
      { events := rest.length + 1
        span := some ((rest.map start).foldl min (start first),
          (rest.map finish).foldl max (finish first))
        range } where
  events := by rw [List.countP_eq_length_filter, h, List.length_cons]
  events_pos := Nat.le_add_left 1 _
  span := by
    refine ⟨_, _, rfl, ?_, ?_⟩
    · simpa only [beq_iff_eq] using isLeast_foldl_min h start
    · simpa only [beq_iff_eq] using isGreatest_foldl_max h finish

theorem Describes.exists_row {α : Type} {rows : List α} {track start finish : α → Int} {id : Int}
    {stats : TrackStats} (h : Describes rows track start finish id stats) :
    ∃ row ∈ rows, track row = id := by
  obtain ⟨_, _, -, ⟨⟨row, hrow, hon, -⟩, -⟩, -⟩ := h.span
  exact ⟨row, hrow, hon⟩

/-- It says the same of other rows on the same tracks with the same times. -/
theorem Describes.congr {α β : Type} {rows : List α} {track start finish : α → Int} {id : Int}
    {stats : TrackStats} (h : Describes rows track start finish id stats) {others : List β}
    {track' start' finish' : β → Int}
    (hsame : others.map (fun row => (track' row, start' row, finish' row))
      = rows.map fun row => (track row, start row, finish row)) :
    Describes others track' start' finish' id stats := by
  have hexists : ∀ P : Int × Int × Int → Prop,
      (∃ row ∈ others, P (track' row, start' row, finish' row))
        ↔ ∃ row ∈ rows, P (track row, start row, finish row) := by
    have hmem : ∀ times, (∃ row ∈ others, (track' row, start' row, finish' row) = times)
        ↔ ∃ row ∈ rows, (track row, start row, finish row) = times :=
      fun times => by rw [← List.mem_map, ← List.mem_map, hsame]
    intro P
    constructor
    · rintro ⟨row, hrow, hP⟩
      obtain ⟨other, hother, heq⟩ := (hmem _).mp ⟨row, hrow, rfl⟩
      exact ⟨other, hother, heq ▸ hP⟩
    · rintro ⟨row, hrow, hP⟩
      obtain ⟨other, hother, heq⟩ := (hmem _).mpr ⟨row, hrow, rfl⟩
      exact ⟨other, hother, heq ▸ hP⟩
  obtain ⟨first, last, hspan, hleast, hgreatest⟩ := h.span
  refine ⟨?_, h.events_pos, first, last, hspan, ?_, ?_⟩
  · have hcount := congrArg (List.countP fun row : Int × Int × Int => row.1 == id) hsame
    rw [List.countP_map, List.countP_map] at hcount
    exact h.events.trans hcount.symm
  · have hstarts := fun ts => hexists fun row => row.1 = id ∧ row.2.1 = ts
    simpa only [hstarts] using hleast
  · have hends := fun ts => hexists fun row => row.1 = id ∧ row.2.2 = ts
    simpa only [hends] using hgreatest

theorem filter_track_eq_nil_iff {α : Type} {rows : List α} {track : α → Int} {id : Int} :
    rows.filter (track · == id) = [] ↔ ∀ row ∈ rows, track row ≠ id := by
  simp only [List.filter_eq_nil_iff, beq_iff_eq, ne_eq]

theorem counterStats_eq_none {counters : List Counter} {id : Int}
    (h : ∀ counter ∈ counters, counter.track ≠ id) : counterStats counters id = none := by
  rw [counterStats, filter_track_eq_nil_iff.mpr h]

theorem sliceStats_eq_none {slices : List SliceRow} {id : Int}
    (h : ∀ slice ∈ slices, slice.track ≠ id) : sliceStats slices id = none := by
  rw [sliceStats, filter_track_eq_nil_iff.mpr h]

theorem counterStats_cases (counters : List Counter) (id : Int) :
    (counterStats counters id = none ∧ ∀ counter ∈ counters, counter.track ≠ id)
      ∨ ∃ stats, counterStats counters id = some stats ∧ stats.range.isSome = true
        ∧ Describes counters Counter.track Counter.ts Counter.ts id stats := by
  unfold counterStats
  cases hon : counters.filter (·.track == id) with
  | nil => exact .inl ⟨rfl, filter_track_eq_nil_iff.mp hon⟩
  | cons first rest => exact .inr ⟨_, rfl, rfl, describes_of_filter hon _ _ _⟩

theorem sliceStats_cases (slices : List SliceRow) (id : Int) :
    (sliceStats slices id = none ∧ ∀ slice ∈ slices, slice.track ≠ id)
      ∨ ∃ stats, sliceStats slices id = some stats ∧ stats.range = none
        ∧ Describes slices SliceRow.track SliceRow.ts SliceRow.finish id stats := by
  unfold sliceStats
  cases hon : slices.filter (·.track == id) with
  | nil => exact .inl ⟨rfl, filter_track_eq_nil_iff.mp hon⟩
  | cons first rest => exact .inr ⟨_, rfl, rfl, describes_of_filter hon _ _ _⟩

/-- The end of an interval in the column of times, a signed 64-bit word. -/
def Slice.finish (slice : Slice) : Int :=
  wrapWord64 (slice.ts + slice.dur)

namespace Store

variable {s : Store}

/-! ## The tables of statistics -/

def noStats : TrackStats := { events := 0, span := none, range := none }

/-- A row for each of these numbers that there are statistics of. -/
def statsTable (statsOf : Int → Option TrackStats) (numbers : List Int) :
    List (Int × TrackStats) :=
  numbers.dedup.filterMap fun number => (statsOf number).map (Prod.mk number)

theorem mem_statsTable {statsOf : Int → Option TrackStats} {numbers : List Int}
    {row : Int × TrackStats} :
    row ∈ statsTable statsOf numbers ↔ row.1 ∈ numbers ∧ statsOf row.1 = some row.2 := by
  obtain ⟨number, stats⟩ := row
  simp only [statsTable, List.mem_filterMap, List.mem_dedup, Option.map_eq_some_iff,
    Prod.mk.injEq]
  constructor
  · rintro ⟨_, hnumber, _, hstats, rfl, rfl⟩
    exact ⟨hnumber, hstats⟩
  · rintro ⟨hnumber, hstats⟩
    exact ⟨number, hnumber, stats, hstats, rfl, rfl⟩

theorem nodup_statsTable (statsOf : Int → Option TrackStats) (numbers : List Int) :
    (statsTable statsOf numbers).Nodup := by
  refine (List.nodup_dedup numbers).filterMap fun number other row hrow hother => ?_
  obtain ⟨stats, -, rfl⟩ := Option.map_eq_some_iff.mp hrow
  obtain ⟨_, -, hsame⟩ := Option.map_eq_some_iff.mp hother
  exact (congrArg Prod.fst hsame).symm

/-- In any order a table of statistics has one row of a number, if there are statistics of it. -/
theorem filter_statsTable {statsOf : Int → Option TrackStats} {numbers : List Int}
    {table : List (Int × TrackStats)} (h : table.Perm (statsTable statsOf numbers)) {number : Int}
    (hnone : number ∉ numbers → statsOf number = none) :
    table.filter (fun row => number == row.1) = (statsOf number).toList.map (Prod.mk number) := by
  have hmem : ∀ row, row ∈ table.filter (fun row => number == row.1)
      ↔ row ∈ (statsOf number).toList.map (Prod.mk number) := by
    rintro ⟨other, stats⟩
    rw [List.mem_filter, h.mem_iff, mem_statsTable, beq_iff_eq, List.mem_map]
    simp only [Option.mem_toList, Prod.mk.injEq]
    constructor
    · rintro ⟨⟨-, hstats⟩, rfl⟩
      exact ⟨stats, hstats, rfl, rfl⟩
    · rintro ⟨_, hstats, rfl, rfl⟩
      refine ⟨⟨?_, hstats⟩, rfl⟩
      by_contra hnot
      rw [hnone hnot] at hstats
      cases hstats
  have hnodup : table.Nodup := h.nodup_iff.mpr (nodup_statsTable statsOf numbers)
  have hperm := (List.perm_ext_iff_of_nodup (hnodup.filter _)
    (by cases statsOf number <;> simp)).mpr hmem
  cases hstats : statsOf number with
  | none =>
      rw [hstats] at hperm
      exact hperm.eq_nil
  | some stats =>
      rw [hstats] at hperm
      exact List.perm_singleton.mp hperm

/-- The rows that a table of statistics gives to tracks, and one without numbers for a track that
has none in it. -/
def joinedStats (tracks : List TrackRow) (table : List (Int × TrackStats)) : List TrackSummary :=
  (leftJoin tracks table fun track row => (track.id : Int) == row.1).map fun (track, row) =>
    { track, stats := (row.map (·.2)).getD noStats }

/-- The rows of one track. -/
def rowsOf (counters : List Counter) (slices : List SliceRow) (track : TrackRow) :
    List TrackSummary :=
  match (counterStats counters track.id).toList ++ (sliceStats slices track.id).toList with
  | [] => [{ track, stats := noStats }]
  | stats => stats.map fun stats => { track, stats }

theorem track_of_mem_rowsOf {counters : List Counter} {slices : List SliceRow} {track : TrackRow}
    {row : TrackSummary} (h : row ∈ rowsOf counters slices track) : row.track = track := by
  unfold rowsOf at h
  split at h
  · rw [List.mem_singleton.mp h]
  · obtain ⟨stats, -, rfl⟩ := List.mem_map.mp h
    rfl

theorem joinedStats_eq {counters : List Counter} {slices : List SliceRow}
    {counterTable sliceTable : List (Int × TrackStats)}
    (hcounters : counterTable.Perm (statsTable (counterStats counters) (counters.map (·.track))))
    (hslices : sliceTable.Perm (statsTable (sliceStats slices) (slices.map (·.track))))
    (tracks : List TrackRow) : joinedStats tracks (counterTable ++ sliceTable)
      = tracks.flatMap (rowsOf counters slices) := by
  rw [joinedStats, leftJoin, List.map_flatMap]
  refine List.flatMap_congr fun track _ => ?_
  have hcounter (hnone : (track.id : Int) ∉ counters.map (·.track)) :
      counterStats counters track.id = none :=
    counterStats_eq_none fun counter hcounter heq =>
      hnone (List.mem_map.mpr ⟨counter, hcounter, heq⟩)
  have hslice (hnone : (track.id : Int) ∉ slices.map (·.track)) :
      sliceStats slices track.id = none :=
    sliceStats_eq_none fun slice hslice heq => hnone (List.mem_map.mpr ⟨slice, hslice, heq⟩)
  rw [List.filter_append, filter_statsTable hcounters hcounter, filter_statsTable hslices hslice,
    ← List.map_append, rowsOf]
  cases (counterStats counters track.id).toList ++ (sliceStats slices track.id).toList with
  | nil => rfl
  | cons stats rest => simp only [List.map_cons, List.map_map]; rfl

theorem pairwise_trackRows (s : Store) :
    s.trackRows.Pairwise fun track track' => track.id < track'.id :=
  List.pairwise_map.mp (s.map_id_trackRows ▸ List.pairwise_lt_range)

section Frames

variable {tracks : List TrackRow} {counters : List Counter} {slices : List SliceRow}
  (htracks : s.trackFrame = .ok tracks) (hcounters : s.counterFrame = .ok counters)
  (hslices : s.sliceFrame = .ok slices)
include htracks hcounters hslices

theorem summary_eq_ok : s.summary = .ok (tracks.flatMap (rowsOf counters slices)) := by
  unfold summary
  rw [htracks]
  cases tracks with
  | nil => rfl
  | cons track rest =>
      rw [hcounters, hslices]
      rfl

/-- The summary is what the left join of the tracks with both tables of statistics gives, in
whatever order these are, sorted by the numbers of the tracks. -/
theorem summary_eq_joined {counterTable sliceTable : List (Int × TrackStats)}
    (hcounterTable :
      counterTable.Perm (statsTable (counterStats counters) (counters.map (·.track))))
    (hsliceTable : sliceTable.Perm (statsTable (sliceStats slices) (slices.map (·.track)))) :
    s.summary = .ok ((joinedStats tracks (counterTable ++ sliceTable)).mergeSort
      fun row row' => row.track.id ≤ row'.track.id) := by
  rw [summary_eq_ok htracks hcounters hslices, joinedStats_eq hcounterTable hsliceTable,
    List.mergeSort_of_pairwise]
  have hsame : ∀ track, ∀ row ∈ rowsOf counters slices track, row.track = track :=
    fun _ _ => track_of_mem_rowsOf
  rw [frameOf_eq_ok htracks, List.pairwise_flatMap]
  constructor
  · intro track _
    refine List.pairwise_of_forall_mem_list fun row hrow row' hrow' => ?_
    rw [hsame track row hrow, hsame track row' hrow']
    exact decide_eq_true (Nat.le_refl _)
  · refine s.pairwise_trackRows.imp fun hlt row hrow row' hrow' => ?_
    rw [hsame _ row hrow, hsame _ row' hrow']
    exact decide_eq_true hlt.le

end Frames

/-! ## The summary of an occupied store -/

def startsOn (s : Store) (id : Nat) : Set Int :=
  {ts | (∃ counter ∈ s.counters, counter.track = id ∧ counter.ts = ts)
    ∨ ∃ slice ∈ s.slices, slice.track = id ∧ slice.ts = ts}

def eventsOn (s : Store) (id : Nat) : Nat :=
  s.counters.countP (fun counter => counter.track == (id : Int))
    + s.slices.countP fun slice => slice.track == (id : Int)

/-- What a row of a summary says of its track is so. -/
structure Accounts (s : Store) (row : TrackSummary) : Prop where
  events : row.stats.events = s.eventsOn row.track.id
  events_pos : 1 ≤ row.stats.events
  span : ∃ first last, row.stats.span = some (first, last)
    ∧ IsLeast (s.startsOn row.track.id) first
    ∧ (row.track.kind ≠ .csvSlice → IsGreatest (s.startsOn row.track.id) last)
  range : row.stats.range = none ↔ row.track.kind = .csvSlice

/-- The statistics of intervals are those of the slices, whose ends are words. -/
theorem sliceStats_sliceRows_cases (s : Store) (id : Int) :
    (sliceStats s.sliceRows id = none ∧ ∀ slice ∈ s.slices, slice.track ≠ id)
      ∨ ∃ stats, sliceStats s.sliceRows id = some stats ∧ stats.range = none
        ∧ Describes s.slices.toList Slice.track Slice.ts Slice.finish id stats := by
  have hsame : s.slices.toList.map (fun slice => (slice.track, slice.ts, slice.finish))
      = s.sliceRows.map fun row => (row.track, row.ts, row.finish) := by
    rw [← List.zipIdx_map_fst 0 s.slices.toList, List.map_map, sliceRows, List.map_map]
    rfl
  rcases sliceStats_cases s.sliceRows id with ⟨hstats, hnone⟩ | ⟨stats, hstats, hrange, hsays⟩
  · refine .inl ⟨hstats, fun slice hslice => ?_⟩
    obtain ⟨i, hi, rfl⟩ := Array.mem_iff_getElem.mp hslice
    exact hnone _ (mem_sliceRows.mpr ⟨i, hi, rfl⟩)
  · exact .inr ⟨stats, hstats, hrange, hsays.congr hsame⟩

theorem trackKey?_of_mem_trackRows {track : TrackRow} (h : track ∈ s.trackRows) :
    s.trackKey? track.id = some (track.kind, track.key) := by
  obtain ⟨stored, hstored, hkind, hkey, -⟩ := mem_trackRows.mp h
  show s.tracks[track.id]?.map _ = _
  rw [hstored, Option.map_some, hkind, hkey]

section Occupied

variable (h : s.Occupied) {track : TrackRow} (htrack : track ∈ s.trackRows)
include h htrack

theorem Occupied.kind_of_counter {counter : Counter} (hcounter : counter ∈ s.counters)
    (hon : counter.track = track.id) : track.kind ≠ .csvSlice := by
  obtain ⟨known, hknown, hkind⟩ := h.counter_track counter hcounter
  rw [hon, trackKey?_of_mem_trackRows htrack] at hknown
  obtain rfl := Option.some.inj hknown
  exact hkind

theorem Occupied.kind_of_slice {slice : Slice} (hslice : slice ∈ s.slices)
    (hon : slice.track = track.id) : track.kind = .csvSlice := by
  obtain ⟨known, hknown, hkind⟩ := h.slice_track slice hslice
  rw [hon, trackKey?_of_mem_trackRows htrack] at hknown
  obtain rfl := Option.some.inj hknown
  exact hkind

/-- A track has one row, which is about its samples or about its intervals. -/
theorem Occupied.rowsOf_cases :
    (track.kind ≠ .csvSlice ∧ ∃ stats, rowsOf s.counters.toList s.sliceRows track
          = [{ track, stats }] ∧ stats.range.isSome = true
        ∧ Describes s.counters.toList Counter.track Counter.ts Counter.ts track.id stats
        ∧ ∀ slice ∈ s.slices, slice.track ≠ track.id)
      ∨ (track.kind = .csvSlice ∧ ∃ stats, rowsOf s.counters.toList s.sliceRows track
          = [{ track, stats }] ∧ stats.range = none
        ∧ Describes s.slices.toList Slice.track Slice.ts Slice.finish track.id stats
        ∧ ∀ counter ∈ s.counters, counter.track ≠ track.id) := by
  rcases counterStats_cases s.counters.toList track.id with
      ⟨hcounters, hnone⟩ | ⟨stats, hcounters, hrange, hsays⟩ <;>
    rcases s.sliceStats_sliceRows_cases track.id with
      ⟨hslices, hnone'⟩ | ⟨stats', hslices, hrange', hsays'⟩
  · -- some event is on the track
    obtain ⟨stored, hstored, -⟩ := mem_trackRows.mp htrack
    obtain ⟨counter, hcounter, hon⟩ | ⟨slice, hslice, hon⟩ :=
      h.used track.id (Array.getElem?_eq_some_iff.mp hstored).1
    · exact absurd hon (hnone counter (Array.mem_toList_iff.mpr hcounter))
    · exact absurd hon (hnone' slice hslice)
  · obtain ⟨slice, hslice, hon⟩ := hsays'.exists_row
    refine .inr ⟨h.kind_of_slice htrack (Array.mem_toList_iff.mp hslice) hon, stats', ?_, hrange',
      hsays', fun counter hcounter => hnone counter (Array.mem_toList_iff.mpr hcounter)⟩
    rw [rowsOf, hcounters, hslices]
    rfl
  · obtain ⟨counter, hcounter, hon⟩ := hsays.exists_row
    refine .inl ⟨h.kind_of_counter htrack (Array.mem_toList_iff.mp hcounter) hon, stats, ?_, hrange,
      hsays, hnone'⟩
    rw [rowsOf, hcounters, hslices]
    rfl
  · obtain ⟨counter, hcounter, hon⟩ := hsays.exists_row
    obtain ⟨slice, hslice, hon'⟩ := hsays'.exists_row
    exact absurd (h.kind_of_slice htrack (Array.mem_toList_iff.mp hslice) hon')
      (h.kind_of_counter htrack (Array.mem_toList_iff.mp hcounter) hon)

end Occupied

theorem startsOn_of_no_slice {id : Nat} (hnone : ∀ slice ∈ s.slices, slice.track ≠ id) :
    s.startsOn id = {ts | ∃ counter ∈ s.counters.toList, counter.track = id ∧ counter.ts = ts} := by
  ext ts
  simp only [startsOn, Set.mem_ofPred_eq, Array.mem_toList_iff]
  refine or_iff_left ?_
  rintro ⟨slice, hslice, hon, -⟩
  exact hnone slice hslice hon

theorem startsOn_of_no_counter {id : Nat} (hnone : ∀ counter ∈ s.counters, counter.track ≠ id) :
    s.startsOn id = {ts | ∃ slice ∈ s.slices.toList, slice.track = id ∧ slice.ts = ts} := by
  ext ts
  simp only [startsOn, Set.mem_ofPred_eq, Array.mem_toList_iff]
  refine or_iff_right ?_
  rintro ⟨counter, hcounter, hon, -⟩
  exact hnone counter hcounter hon

/-- So the row of a track accounts for it. -/
theorem Occupied.exists_row (h : s.Occupied) {track : TrackRow} (htrack : track ∈ s.trackRows) :
    ∃ row, rowsOf s.counters.toList s.sliceRows track = [row] ∧ row.track = track
      ∧ s.Accounts row := by
  obtain ⟨hkind, stats, hrow, hrange, hsays, hnone⟩ | ⟨hkind, stats, hrow, hrange, hsays, hnone⟩ :=
    h.rowsOf_cases htrack <;>
  obtain ⟨first, last, hspan, hfirst, hlast⟩ := hsays.span
  · refine ⟨_, hrow, rfl, ?_, hsays.events_pos, ⟨first, last, hspan, ?_, fun _ => ?_⟩, ?_⟩
    · have hslices : s.slices.countP (fun slice => slice.track == (track.id : Int)) = 0 := by
        simpa [Array.countP_eq_zero] using hnone
      rw [eventsOn, hslices, hsays.events, Array.countP_toList]
      rfl
    · exact startsOn_of_no_slice hnone ▸ hfirst
    · exact startsOn_of_no_slice hnone ▸ hlast
    · refine iff_of_false (fun heq => ?_) hkind
      dsimp only at heq
      rw [heq] at hrange
      cases hrange
  · refine ⟨_, hrow, rfl, ?_, hsays.events_pos, ⟨first, last, hspan, ?_, absurd hkind⟩,
      iff_of_true hrange hkind⟩
    · have hcounters :
          s.counters.countP (fun counter => counter.track == (track.id : Int)) = 0 := by
        simpa [Array.countP_eq_zero] using hnone
      rw [eventsOn, hcounters, hsays.events, Array.countP_toList, Nat.zero_add]
    · exact startsOn_of_no_counter hnone ▸ hfirst

theorem map_flatMap_of_singletons {α β : Type} {xs : List α} {f : α → List β} {key : β → α}
    {P : β → Prop} (h : ∀ x ∈ xs, ∃ y, f x = [y] ∧ key y = x ∧ P y) :
    (xs.flatMap f).map key = xs ∧ ∀ y ∈ xs.flatMap f, P y := by
  induction xs with
  | nil => exact ⟨rfl, fun y hy => absurd hy List.not_mem_nil⟩
  | cons x xs ih =>
      obtain ⟨⟨y, heq, hkey, hy⟩, hrest⟩ := List.forall_mem_cons.mp h
      obtain ⟨hkeys, hys⟩ := ih hrest
      rw [List.flatMap_cons, heq, List.singleton_append, List.map_cons, hkey, hkeys]
      exact ⟨rfl, List.forall_mem_cons.mpr ⟨hy, hys⟩⟩

/-- Where each track has one row there is a summary with these rows. -/
theorem exists_summary {P : TrackSummary → Prop} (htracks : ∃ frame, s.trackFrame = .ok frame)
    (hcounters : ∃ frame, s.counterFrame = .ok frame) (hslices : ∃ frame, s.sliceFrame = .ok frame)
    (h : ∀ track ∈ s.trackRows, ∃ row, rowsOf s.counters.toList s.sliceRows track = [row]
      ∧ row.track = track ∧ P row) :
    ∃ rows, s.summary = .ok rows ∧ rows.map (·.track) = s.trackRows ∧ ∀ row ∈ rows, P row := by
  obtain ⟨tracks, htracks⟩ := htracks
  obtain ⟨counters, hcounters⟩ := hcounters
  obtain ⟨slices, hslices⟩ := hslices
  have hsummary := summary_eq_ok htracks hcounters hslices
  rw [frameOf_eq_ok htracks, frameOf_eq_ok hcounters, frameOf_eq_ok hslices] at hsummary
  obtain ⟨hmap, hrows⟩ := map_flatMap_of_singletons h
  exact ⟨_, hsummary, hmap, hrows⟩

theorem exists_of_trackKey? {number : Int} {known : TrackKey}
    (h : s.trackKey? number = some known) : ∃ id < s.tracks.size, number = (id : Int) := by
  cases number with
  | negSucc n => cases h
  | ofNat id =>
      obtain ⟨track, htrack, -⟩ := Option.map_eq_some_iff.mp h
      exact ⟨id, (Array.getElem?_eq_some_iff.mp htrack).1, rfl⟩

/-- Every event is on one of the tracks, so the numbers of events on them add up to all. -/
theorem Occupied.sum_eventsOn (h : s.Occupied) :
    ((List.range s.tracks.size).map s.eventsOn).sum = s.counters.size + s.slices.size := by
  let events : Multiset Int :=
    ↑(s.counters.toList.map Counter.track ++ s.slices.toList.map Slice.track)
  let numbers : Finset Int := (Finset.range s.tracks.size).map Nat.castEmbedding
  have hmem : ∀ number ∈ events, number ∈ numbers := by
    intro number hnumber
    have hknown : ∃ known, s.trackKey? number = some known := by
      rcases List.mem_append.mp (Multiset.mem_coe.mp hnumber) with hold | hold
      · obtain ⟨counter, hcounter, rfl⟩ := List.mem_map.mp hold
        exact (h.counter_track counter (Array.mem_toList_iff.mp hcounter)).imp fun _ => And.left
      · obtain ⟨slice, hslice, rfl⟩ := List.mem_map.mp hold
        exact (h.slice_track slice (Array.mem_toList_iff.mp hslice)).imp fun _ => And.left
    obtain ⟨known, hknown⟩ := hknown
    obtain ⟨id, hid, rfl⟩ := exists_of_trackKey? hknown
    exact Finset.mem_map_of_mem Nat.castEmbedding (Finset.mem_range.mpr hid)
  have hcount : ∀ id : Nat, events.count (id : Int) = s.eventsOn id := by
    intro id
    rw [Multiset.coe_count, List.count_append, List.count_eq_countP, List.count_eq_countP,
      List.countP_map, List.countP_map, eventsOn, ← Array.countP_toList, ← Array.countP_toList]
    rfl
  calc ((List.range s.tracks.size).map s.eventsOn).sum
      = ∑ id ∈ Finset.range s.tracks.size, s.eventsOn id := rfl
    _ = ∑ id ∈ Finset.range s.tracks.size, events.count (id : Int) := by simp only [hcount]
    _ = ∑ number ∈ numbers, events.count number := by
      rw [Finset.sum_map]
      rfl
    _ = events.card := Multiset.sum_count_eq_card hmem
    _ = s.counters.size + s.slices.size := by simp [events]

end Store

end Trace

namespace Import

open Trace (Store)

variable {formats : CaptureFormat → Prop} {s : Store}

/-- What imports of any formats have filled, one after the other and whether they failed or not, has
a summary with one row for each track, in the order of their numbers. Each row has the number of the
events on its track, at least one, and the first time of one, on the track of a capture also the
last; on the track of an export, and on no other, there is no range of values. The numbers of events
add up to all that have been stored. -/
theorem summary_accounts (h : Imported formats s)
    (hcount : s.counters.size + s.slices.size < 2 ^ 32)
    (htracks : ∃ frame, s.trackFrame = .ok frame) (hcounters : ∃ frame, s.counterFrame = .ok frame)
    (hslices : ∃ frame, s.sliceFrame = .ok frame) :
    ∃ rows, s.summary = .ok rows
      ∧ rows.map (·.track) = s.trackRows
      ∧ rows.map (·.track.id) = List.range s.tracks.size
      ∧ (∀ row ∈ rows, s.Accounts row ∧ row.stats.events < 2 ^ 32)
      ∧ (rows.map (·.stats.events)).sum = s.counters.size + s.slices.size := by
  have hoccupied := h.occupied.1
  obtain ⟨rows, hsummary, hmap, hrows⟩ :=
    Store.exists_summary htracks hcounters hslices fun _ => hoccupied.exists_row
  have hids : rows.map (·.track.id) = List.range s.tracks.size := by
    rw [← s.map_id_trackRows, ← hmap, List.map_map]
    rfl
  refine ⟨rows, hsummary, hmap, hids, fun row hrow => ⟨hrows row hrow, ?_⟩, ?_⟩
  · rw [(hrows row hrow).events]
    exact lt_of_le_of_lt (Nat.add_le_add Array.countP_le_size Array.countP_le_size) hcount
  · rw [← hoccupied.sum_eventsOn, ← hids, List.map_map]
    exact congrArg List.sum (List.map_congr_left fun row hrow => (hrows row hrow).events)

/-- An export whose second row has no time, so that the import fails behind the first. -/
def faultyTime : List UInt8 :=
  plainOctets "name,type,start_time,duration\nA,x,2,1\nB,x,late,1\nA,x,3,1\n"

/-- It is imported behind a pulse. -/
def pulseImport : Result :=
  importBytes csvConfig none
    (importBytes { request := .format "binary" } none {} Binary.pulse.encode).store faultyTime

def pulseStore : Store := pulseImport.store

theorem imported_pulseStore : Imported (fun _ => True) pulseStore :=
  (Imported.empty.bytes { request := .format "binary" } none Binary.pulse.encode
    fun _ _ => trivial).bytes csvConfig none faultyTime fun _ _ => trivial

theorem summary_accounts_pulseStore :
    pulseImport.failure.isSome = true ∧ ∃ rows, pulseStore.summary = .ok rows
      ∧ rows.map (fun row => (row.track.id, row.track.name))
        = [(0, "Saleae Digital"), (1, "Saleae CSV: A")]
      ∧ rows.map (·.stats.events) = [2, 1]
      ∧ (rows.map (·.stats.events)).sum = 3 := by
  have hframes : pulseStore.trackFrame.toOption.isSome = true
      ∧ pulseStore.counterFrame.toOption.isSome = true
      ∧ pulseStore.sliceFrame.toOption.isSome = true
      ∧ (pulseStore.counters.size = 2 ∧ pulseStore.slices.size = 1)
      ∧ pulseImport.failure.isSome = true
      ∧ pulseStore.trackRows.map (fun track => (track.id, track.name))
        = [(0, "Saleae Digital"), (1, "Saleae CSV: A")]
      ∧ (List.range pulseStore.tracks.size).map pulseStore.eventsOn = [2, 1] := by decide +kernel
  obtain ⟨htracks, hcounterFrame, hsliceFrame, ⟨hcounters, hslices⟩, hfails, hnames, hevents⟩ :=
    hframes
  obtain ⟨rows, hsummary, htrack, hids, hrows, hsum⟩ := summary_accounts imported_pulseStore
    (by rw [hcounters, hslices]; decide) (exists_ok_of_isSome htracks)
    (exists_ok_of_isSome hcounterFrame) (exists_ok_of_isSome hsliceFrame)
  rw [hcounters, hslices] at hsum
  refine ⟨hfails, rows, hsummary, ?_, ?_, hsum⟩
  · rw [← hnames, ← htrack, List.map_map]
    rfl
  · rw [← hevents, ← hids, List.map_map]
    exact List.map_congr_left fun row hrow => (hrows row hrow).1.events

end Import

end LogicCapture
