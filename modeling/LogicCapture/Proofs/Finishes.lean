import Mathlib
import LogicCapture.Proofs.Summaries

/-!
# When a track of intervals ends

The summary says when the last interval of a track ends. Ends are computed in the column of times:
the time and the duration of an interval are signed 64-bit words, but their sum need not be one, and
where it leaves the words it wraps. What is said is the end of the track as long as no interval ends
beyond the words; a single one that does is taken for one that ended long before all others
(`summary_finishes`).
-/

namespace LogicCapture

/-! ## Numbers that wrap -/

/-- What is the sum of two words wraps once at most. -/
theorem wrapWord64_cases {n : Int} (hlow : -0x10000000000000000 ≤ n)
    (hhigh : n < 0x10000000000000000) :
    (n < -0x8000000000000000 ∧ wrapWord64 n = n + 0x10000000000000000)
      ∨ (fitsWord64 n = true ∧ wrapWord64 n = n)
      ∨ 0x8000000000000000 ≤ n ∧ wrapWord64 n = n - 0x10000000000000000 := by
  rw [fitsWord64_iff]
  unfold wrapWord64
  rcases lt_or_ge n (-0x8000000000000000) with hbefore | hfrom
  · refine .inl ⟨hbefore, ?_⟩
    rw [← Int.add_bmod_right, Int.bmod_eq_of_le] <;> omega
  · rcases lt_or_ge n 0x8000000000000000 with hinside | hbeyond
    · exact .inr (.inl ⟨⟨hfrom, hinside⟩, Int.bmod_eq_of_le (by omega) (by omega)⟩)
    · refine .inr (.inr ⟨hbeyond, ?_⟩)
      rw [← Int.sub_bmod_right, Int.bmod_eq_of_le] <;> omega

section Wrapped

variable {numbers : Set Int} {last : Int}
  (hsums : ∀ n ∈ numbers, -0x10000000000000000 ≤ n ∧ n < 0x10000000000000000)
  (hlast : IsGreatest (wrapWord64 '' numbers) last)
include hsums hlast

theorem fitsWord64_of_wrapped : fitsWord64 last = true := by
  obtain ⟨n, hn, rfl⟩ := hlast.1
  obtain ⟨hlow, hhigh⟩ := hsums n hn
  rw [fitsWord64_iff]
  rcases wrapWord64_cases hlow hhigh with ⟨hbefore, heq⟩ | ⟨hfits, heq⟩ | ⟨hbeyond, heq⟩
  · omega
  · rw [fitsWord64_iff] at hfits
    omega
  · omega

/-- It is not exceeded as long as no number is beyond the words. -/
theorem mem_upperBounds_wrapped_iff :
    last ∈ upperBounds numbers ↔ ∀ n ∈ numbers, n < 0x8000000000000000 := by
  have hword := fitsWord64_iff.mp (fitsWord64_of_wrapped hsums hlast)
  constructor
  · intro hbound n hn
    exact lt_of_le_of_lt (hbound hn) hword.2
  · intro hinside n hn
    have hle : wrapWord64 n ≤ last := hlast.2 ⟨n, hn, rfl⟩
    have hlt := hinside n hn
    obtain ⟨hlow, hhigh⟩ := hsums n hn
    rcases wrapWord64_cases hlow hhigh with ⟨hbefore, heq⟩ | ⟨hfits, heq⟩ | ⟨hbeyond, heq⟩ <;> omega

/-- It is the greatest number if none is beyond the words and none before them comes out on top. -/
theorem isGreatest_wrapped_iff :
    IsGreatest numbers last ↔ ∀ n ∈ numbers, n < 0x8000000000000000
      ∧ (n < -0x8000000000000000 → ∃ other ∈ numbers, n + 0x10000000000000000 ≤ other) := by
  constructor
  · rintro ⟨hmem, hbound⟩ n hn
    refine ⟨(mem_upperBounds_wrapped_iff hsums hlast).mp hbound n hn, fun hbefore => ?_⟩
    have hle : wrapWord64 n ≤ last := hlast.2 ⟨n, hn, rfl⟩
    obtain ⟨hlow, hhigh⟩ := hsums n hn
    refine ⟨last, hmem, ?_⟩
    rcases wrapWord64_cases hlow hhigh with ⟨-, heq⟩ | ⟨hfits, -⟩ | ⟨hbeyond, -⟩
    · omega
    · rw [fitsWord64_iff] at hfits
      omega
    · omega
  · intro hall
    have hbound := (mem_upperBounds_wrapped_iff hsums hlast).mpr fun n hn => (hall n hn).1
    refine ⟨?_, hbound⟩
    obtain ⟨n, hn, hwrap⟩ := hlast.1
    obtain ⟨hlow, hhigh⟩ := hsums n hn
    obtain ⟨hlt, hother⟩ := hall n hn
    rcases wrapWord64_cases hlow hhigh with ⟨hbefore, heq⟩ | ⟨-, heq⟩ | ⟨hbeyond, -⟩
    · -- the number that comes out on top is reached by another one
      obtain ⟨other, hmem, hle⟩ := hother hbefore
      have hge : other ≤ last := hbound hmem
      have hsame : last = other := by omega
      exact hsame ▸ hmem
    · rw [← hwrap, heq]
      exact hn
    · omega

end Wrapped

/-! ## The times of a track -/

namespace Trace.Store

variable {s : Store} {id : Nat}

/-- The times at which the intervals on a track end, as whole numbers without bound. -/
def endsOn (s : Store) (id : Nat) : Set Int :=
  {ts | ∃ slice ∈ s.slices, slice.track = id ∧ slice.ts + slice.dur = ts}

/-- What the first and the last time in the row of a track have to do with its intervals. The last
is the greatest of their ends as words. No interval ends after it if and only if none ends beyond
the words; it is the end of the track if and only if, besides, what wraps from before the words does
not come out behind all others. Where no duration is negative, the last time is not before the first
if and only if some interval does not end beyond the words. -/
structure Spans (s : Store) (id : Nat) (first last : Int) : Prop where
  first_least : IsLeast (s.startsOn id) first
  last_greatest : IsGreatest (wrapWord64 '' s.endsOn id) last
  bound_iff : last ∈ upperBounds (s.endsOn id)
    ↔ ∀ ts ∈ s.endsOn id, ts < 0x8000000000000000
  greatest_iff : IsGreatest (s.endsOn id) last ↔ ∀ ts ∈ s.endsOn id, ts < 0x8000000000000000
    ∧ (ts < -0x8000000000000000 → ∃ other ∈ s.endsOn id, ts + 0x10000000000000000 ≤ other)
  ordered_iff : (∀ slice ∈ s.slices, slice.track = id → 0 ≤ slice.dur) →
    (first ≤ last ↔ ∃ ts ∈ s.endsOn id, ts < 0x8000000000000000)

def SlicesFit (s : Store) : Prop :=
  ∀ slice ∈ s.slices, fitsWord64 slice.ts = true ∧ fitsWord64 slice.dur = true

theorem SlicesFit.sums (h : s.SlicesFit) :
    ∀ ts ∈ s.endsOn id, -0x10000000000000000 ≤ ts ∧ ts < 0x10000000000000000 := by
  rintro ts ⟨slice, hslice, -, rfl⟩
  obtain ⟨hts, hdur⟩ := h slice hslice
  rw [fitsWord64_iff] at hts hdur
  omega

/-- The first and last time of intervals that fit. -/
theorem SlicesFit.spans (h : s.SlicesFit) {first last : Int}
    (hfirst : IsLeast (s.startsOn id) first)
    (hlast : IsGreatest (wrapWord64 '' s.endsOn id) last)
    (hnone : ∀ counter ∈ s.counters, counter.track ≠ id) : s.Spans id first last := by
  refine ⟨hfirst, hlast, mem_upperBounds_wrapped_iff h.sums hlast,
    isGreatest_wrapped_iff h.sums hlast, fun hdurations => ⟨fun hle => ?_, ?_⟩⟩
  · -- where all intervals end beyond the words, they begin behind zero and seem to end before it
    by_contra hall
    push Not at hall
    have hmem := hfirst.1
    rw [startsOn_of_no_counter hnone] at hmem
    obtain ⟨slice, hslice, hon, hts⟩ := hmem
    rw [Array.mem_toList_iff] at hslice
    have hend := hall _ ⟨slice, hslice, hon, rfl⟩
    have hdur := fitsWord64_iff.mp (h slice hslice).2
    obtain ⟨ts, hmem, hwrap⟩ := hlast.1
    have hbeyond := hall ts hmem
    obtain ⟨hlow, hhigh⟩ := h.sums ts hmem
    rcases wrapWord64_cases hlow hhigh with ⟨hbefore, -⟩ | ⟨hfits, -⟩ | ⟨-, heq⟩
    · omega
    · rw [fitsWord64_iff] at hfits
      omega
    · omega
  · rintro ⟨_, ⟨slice, hslice, hon, rfl⟩, hlt⟩
    have hstart : first ≤ slice.ts := hfirst.2 (.inr ⟨slice, hslice, hon, rfl⟩)
    have hdur := hdurations slice hslice hon
    have hts := fitsWord64_iff.mp (h slice hslice).1
    have hend : slice.finish ≤ last := hlast.2 ⟨_, ⟨slice, hslice, hon, rfl⟩, rfl⟩
    rw [Slice.finish, wrapWord64_of_fits (fitsWord64_iff.mpr (by omega))] at hend
    omega

theorem Occupied.size_tracks_le (h : s.Occupied) :
    s.tracks.size ≤ s.counters.size + s.slices.size := by
  have hevents : ∀ n ∈ (List.range s.tracks.size).map s.eventsOn, 1 ≤ n := by
    intro n hn
    obtain ⟨id, hid, rfl⟩ := List.mem_map.mp hn
    rw [eventsOn]
    obtain ⟨counter, hcounter, hon⟩ | ⟨slice, hslice, hon⟩ := h.used id (List.mem_range.mp hid)
    · exact Nat.le_add_right_of_le
        (Array.countP_pos_iff.mpr ⟨counter, hcounter, beq_iff_eq.mpr hon⟩)
    · exact Nat.le_add_left_of_le
        (Array.countP_pos_iff.mpr ⟨slice, hslice, beq_iff_eq.mpr hon⟩)
  have hlength := List.length_le_sum_of_one_le _ hevents
  rwa [List.length_map, List.length_range, h.sum_eventsOn] at hlength

/-- Without samples the row of a track says when its intervals begin and end. -/
theorem Occupied.exists_span (h : s.Occupied) (hfit : s.SlicesFit) (hcounters : s.counters = #[])
    {track : TrackRow} (htrack : track ∈ s.trackRows) :
    ∃ row, rowsOf s.counters.toList s.sliceRows track = [row] ∧ row.track = track
      ∧ row.track.kind = .csvSlice ∧ ∃ first last, row.stats.span = some (first, last)
        ∧ s.Spans row.track.id first last := by
  obtain ⟨-, stats, -, -, hsays, -⟩ | ⟨hkind, stats, hrow, -, hsays, hnone⟩ := h.rowsOf_cases htrack
  · obtain ⟨counter, hcounter, -⟩ := hsays.exists_row
    rw [hcounters] at hcounter
    exact absurd hcounter List.not_mem_nil
  · obtain ⟨first, last, hspan, hfirst, hlast⟩ := hsays.span
    refine ⟨_, hrow, rfl, hkind, first, last, hspan, hfit.spans ?_ ?_ hnone⟩
    · exact startsOn_of_no_counter hnone ▸ hfirst
    · have hends : wrapWord64 '' s.endsOn track.id
          = {ts | ∃ slice ∈ s.slices.toList, slice.track = track.id ∧ slice.finish = ts} := by
        ext ts
        constructor
        · rintro ⟨_, ⟨slice, hslice, hon, rfl⟩, rfl⟩
          exact ⟨slice, Array.mem_toList_iff.mpr hslice, hon, rfl⟩
        · rintro ⟨slice, hslice, hon, rfl⟩
          exact ⟨_, ⟨slice, Array.mem_toList_iff.mp hslice, hon, rfl⟩, rfl⟩
      exact hends ▸ hlast

end Trace.Store

namespace Import

open Trace (Store)

variable {s : Store}

/-- Where the intervals have a table, so have the tracks and the samples if there are none. -/
theorem frames_of_sliceFrame (h : s.Occupied) (hcounters : s.counters = #[])
    (hslices : ∃ frame, s.sliceFrame = .ok frame) :
    (∃ frame, s.trackFrame = .ok frame) ∧ (∃ frame, s.counterFrame = .ok frame)
      ∧ s.SlicesFit := by
  have hsize : s.tracks.size ≤ s.slices.size := by
    have hle := h.size_tracks_le
    rwa [hcounters, Array.size_empty, Nat.zero_add] at hle
  have hplaced : ∀ slice ∈ s.slices, 0 ≤ slice.track ∧ slice.track < s.slices.size := by
    intro slice hslice
    obtain ⟨known, hknown, -⟩ := h.slice_track slice hslice
    obtain ⟨id, hid, heq⟩ := Store.exists_of_trackKey? hknown
    omega
  obtain ⟨hmany, hfit⟩ := (Trace.sliceFrame_iff hplaced).mp hslices
  refine ⟨Trace.frameOf_eq_ok_iff.mpr fun row hrow n hn => ?_, Trace.counterFrame_iff.mpr ?_, hfit⟩
  · obtain ⟨track, htrack, -⟩ := Store.mem_trackRows.mp hrow
    have hid := (Array.getElem?_eq_some_iff.mp htrack).1
    rw [List.mem_singleton.mp hn, fitsWord64_iff]
    omega
  · simp [hcounters]

/-- Whatever exports have been imported into a store, if their intervals have a table then there is
a summary with a row for each track, and its times are those of the intervals on the track as far as
their ends are words. -/
theorem summary_finishes (h : Imported (· = .csv) s) (hslices : ∃ frame, s.sliceFrame = .ok frame) :
    ∃ rows, s.summary = .ok rows ∧ rows.map (·.track) = s.trackRows
      ∧ ∀ row ∈ rows, row.track.kind = .csvSlice ∧ ∃ first last,
          row.stats.span = some (first, last) ∧ s.Spans row.track.id first last := by
  obtain ⟨hoccupied, hcounters⟩ := h.occupied
  have hcounters := hcounters nofun
  obtain ⟨htracks, hcounterFrame, hfit⟩ := frames_of_sliceFrame hoccupied hcounters hslices
  exact Store.exists_summary htracks hcounterFrame hslices fun _ htrack =>
    hoccupied.exists_span hfit hcounters htrack

/-- An interval within another one, and a third on a track of its own. -/
def nestedStore : Store :=
  (importBytes csvConfig none {}
    (plainOctets "name,type,start_time,duration\nA,x,2,5\nA,x,3,1\nB,x,-1,0\n")).store

theorem summary_finishes_nestedStore :
    ∃ rows, nestedStore.summary = .ok rows ∧ rows.map (·.track.name)
        = ["Saleae CSV: A", "Saleae CSV: B"]
      ∧ ∀ row ∈ rows, ∃ first last, row.stats.span = some (first, last) ∧ first ≤ last
        ∧ IsGreatest (nestedStore.endsOn row.track.id) last := by
  have hstore : nestedStore.sliceFrame.toOption.isSome = true
      ∧ (∀ slice ∈ nestedStore.slices, 0 ≤ slice.dur ∧ -0x8000000000000000 ≤ slice.ts + slice.dur
        ∧ slice.ts + slice.dur < 0x8000000000000000)
      ∧ nestedStore.trackRows.map (·.name) = ["Saleae CSV: A", "Saleae CSV: B"] := by
    decide +kernel
  obtain ⟨hframe, hslices, hnames⟩ := hstore
  have himported : Imported (· = .csv) nestedStore :=
    Imported.empty.bytes csvConfig none _ fun _ h => (Except.ok.inj h).symm
  obtain ⟨rows, hsummary, htracks, hrows⟩ :=
    summary_finishes himported (exists_ok_of_isSome hframe)
  refine ⟨rows, hsummary, ?_, fun row hrow => ?_⟩
  · rw [← hnames, ← htracks, List.map_map]
    rfl
  · obtain ⟨-, first, last, hspan, hspans⟩ := hrows row hrow
    have hinside : ∀ ts ∈ nestedStore.endsOn row.track.id,
        -0x8000000000000000 ≤ ts ∧ ts < 0x8000000000000000 := by
      rintro _ ⟨slice, hslice, -, rfl⟩
      exact (hslices slice hslice).2
    obtain ⟨ts, hts, -⟩ := hspans.last_greatest.1
    refine ⟨first, last, hspan, ?_, hspans.greatest_iff.mpr fun ts hts => ⟨(hinside ts hts).2, ?_⟩⟩
    · exact (hspans.ordered_iff fun slice hslice _ => (hslices slice hslice).1).mpr
        ⟨ts, hts, (hinside ts hts).2⟩
    · exact fun hbefore => absurd hbefore (not_lt_of_ge (hinside ts hts).1)

/-- An interval whose time and duration are words, and whose end is beyond them. -/
def lateStore : Store :=
  (importBytes csvConfig none {}
    (plainOctets "name,type,start_time,duration\nA,x,9e9,1e9\n")).store

/-- It ends after what the summary gives as the end of its track, which is before its beginning. -/
theorem summary_lateStore :
    (∃ frame, lateStore.sliceFrame = .ok frame) ∧ (∀ slice ∈ lateStore.slices, 0 ≤ slice.dur)
      ∧ ∃ rows, lateStore.summary = .ok rows ∧ ∃ row ∈ rows,
        row.stats.span = some (9000000000000000000, -8446744073709551616)
          ∧ 10000000000000000000 ∈ lateStore.endsOn row.track.id
          ∧ ¬IsGreatest (lateStore.endsOn row.track.id) (-8446744073709551616) := by
  have hstore : lateStore.sliceFrame.toOption.isSome = true
      ∧ (∀ slice ∈ lateStore.slices, 0 ≤ slice.dur)
      ∧ lateStore.summary.toOption.map (List.map fun row => (row.track.id, row.stats.span))
        = some [(0, some (9000000000000000000, -8446744073709551616))]
      ∧ ∃ slice ∈ lateStore.slices, slice.track = 0
        ∧ slice.ts + slice.dur = 10000000000000000000 := by decide +kernel
  obtain ⟨hframe, hdurations, hrun, hend⟩ := hstore
  replace hend : 10000000000000000000 ∈ lateStore.endsOn 0 := hend
  refine ⟨exists_ok_of_isSome hframe, hdurations, ?_⟩
  cases hsummary : lateStore.summary with
  | error failure =>
      rw [hsummary] at hrun
      cases hrun
  | ok rows =>
      rw [hsummary] at hrun
      obtain ⟨row, rfl, hrow⟩ := List.map_eq_singleton_iff.mp (Option.some.inj hrun)
      obtain ⟨hid, hspan⟩ := Prod.mk.inj hrow
      rw [← hid] at hend
      refine ⟨_, rfl, row, List.mem_singleton_self row, hspan, hend, fun hgreatest => ?_⟩
      exact absurd (hgreatest.2 hend) (by decide)

end Import

end LogicCapture
