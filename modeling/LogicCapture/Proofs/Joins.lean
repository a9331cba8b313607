import Mathlib
import LogicCapture.Trace.Summary
import LogicCapture.Proofs.Growth

/-!
# Joining the frames of a trace

The list of transactions is put together from three frames. In the language of tables: of the
intervals those of a category are taken, joined on the left with the arguments of each of three
keys, and then with the tracks, and what comes of it is sorted by time (`transactions_eq_joined`).
A join repeats a row that has several matches, so the list has a row for each way to take an
argument of each key. A row never matches two tracks.
-/

namespace LogicCapture.Trace

/-! ## Left joins -/

section Joins

variable {α β : Type}

/-- Each row on the left with each row on the right that matches it, or by itself if none does. -/
def leftJoin (left : List α) (right : List β) (matching : α → β → Bool) : List (α × Option β) :=
  left.flatMap fun a =>
    match right.filter (matching a) with
    | [] => [(a, none)]
    | found => found.map fun b => (a, some b)

/-- Where no row has two matches the join keeps the rows as they are. -/
theorem leftJoin_eq_map {left : List α} {right : List β} {matching : α → β → Bool}
    (h : ∀ a ∈ left, (right.filter (matching a)).length ≤ 1) :
    leftJoin left right matching = left.map fun a => (a, right.find? (matching a)) := by
  rw [leftJoin, List.map_eq_flatMap]
  refine List.flatMap_congr fun a ha => ?_
  have hfirst : right.find? (matching a) = (right.filter (matching a)).head? :=
    (List.head?_filter).symm
  have hone := h a ha
  rw [hfirst]
  generalize right.filter (matching a) = found at hone ⊢
  rcases found with _ | ⟨b, _ | ⟨c, rest⟩⟩
  · rfl
  · rfl
  · simp at hone

end Joins

/-- The rows of intervals with the texts of the arguments with this key. -/
def joinArgs (set : TransactionRow → Option String → TransactionRow) (key : String)
    (args : List ArgRow) (rows : List (SliceRow × TransactionRow)) :
    List (SliceRow × TransactionRow) :=
  (leftJoin rows (args.filter (·.key == key)) fun row arg => row.1.id == arg.slice).map
    fun (row, arg) => (row.1, set row.2 (arg.bind (·.value.text?)))

/-- The intervals of a category with three columns of arguments and one of tracks. -/
def joined (slices : List SliceRow) (args : List ArgRow) (tracks : List TrackRow)
    (category : String) : List TransactionRow :=
  let found := (slices.filter (·.category == some category)).map fun slice =>
    (slice, { ts := slice.ts, dur := slice.dur, track := none, name := slice.name
              address := none, writeBytes := none, readBytes := none })
  let found := joinArgs (fun row text => { row with address := text }) "address" args found
  let found := joinArgs (fun row text => { row with writeBytes := text }) "write_bytes" args found
  let found := joinArgs (fun row text => { row with readBytes := text }) "read_bytes" args found
  (leftJoin found tracks fun row track => (track.id : Int) == row.1.track).map
    fun (row, track) => { row.2 with track := track.map (·.name) }

namespace Store

/-- An interval is joined with each of its own arguments that has the key. -/
theorem joinArgs_eq (set : TransactionRow → Option String → TransactionRow) (key : String)
    (args : List ArgRow) (rows : List (SliceRow × TransactionRow)) :
    joinArgs set key args rows = rows.flatMap fun row =>
      (argTexts (args.filter fun arg => row.1.id == arg.slice) key).map fun text =>
        (row.1, set row.2 text) := by
  rw [joinArgs, leftJoin, List.map_flatMap]
  refine List.flatMap_congr fun row _ => ?_
  have hsame : (args.filter (·.key == key)).filter (fun arg => row.1.id == arg.slice)
      = (args.filter fun arg => row.1.id == arg.slice).filter (·.key == key) := by
    rw [List.filter_filter, List.filter_filter]
    exact List.filter_congr fun arg _ => Bool.and_comm _ _
  rw [hsame, argTexts]
  cases (args.filter fun arg => row.1.id == arg.slice).filter (·.key == key) with
  | nil => rfl
  | cons arg found => simp

theorem filter_number_le {α : Type} {number : α → Int} {rows : List α}
    (h : (rows.map number).Nodup) (n : Int) :
    (rows.filter fun row => number row == n).length ≤ 1 := by
  have hcount := List.nodup_iff_count_le_one.mp h n
  rw [List.count_eq_countP, List.countP_map, List.countP_eq_length_filter] at hcount
  exact hcount

theorem nodup_trackRows (s : Store) : (s.trackRows.map fun track => (track.id : Int)).Nodup := by
  have hids : s.trackRows.map (fun track => (track.id : Int))
      = (List.range s.tracks.size).map Int.ofNat := by
    rw [← s.map_id_trackRows, List.map_map]
    rfl
  rw [hids]
  exact List.Nodup.map (fun _ _ h => Int.ofNat.inj h) List.nodup_range

/-- The arguments with the number of an interval are those that stand beside it. -/
theorem filter_argRows {s : Store} {row : SliceRow} {args : List ArgRow}
    (h : (row, args) ∈ s.sliceRows.zip s.argRowsBySlice) :
    (s.argRows.filter fun arg => row.id == arg.slice) = args := by
  rw [sliceRows, argRowsBySlice, List.zip_map', List.mem_map] at h
  obtain ⟨p, hp, heq⟩ := h
  obtain ⟨rfl, rfl⟩ := Prod.mk.inj heq
  rw [argRows, argRowsBySlice, ← List.flatMap_def]
  have hnumber : ∀ q : Slice × Nat, ∀ arg ∈ s.argRowsOf q.2 q.1, arg.slice = q.2 := by
    rintro ⟨slice, id⟩ arg harg
    obtain ⟨stored, -, rfl⟩ := List.mem_map.mp harg
    rfl
  refine filter_flatMap_zipIdx (fun arg harg => ?_) (fun q hq arg harg => ?_) hp
  · rw [hnumber p arg harg]
    exact beq_self_eq_true _
  · rw [hnumber q arg harg]
    simpa using hq.symm

/-! ## Frames -/

theorem frameOf_eq_ok {α : Type} {numbers : α → List Int} {rows frame : List α}
    (h : frameOf numbers rows = .ok frame) : frame = rows := by
  unfold frameOf at h
  split at h
  · exact (Except.ok.inj h).symm
  · cases h

theorem argFrame_eq_ok {s : Store} {args : List ArgRow} (h : s.argFrame = .ok args) :
    args = s.argRows := by
  unfold argFrame knownArgRows at h
  cases hknown : s.slices.toList.forM fun slice => s.checkKeys slice.args with
  | error failure => rw [hknown] at h; cases h
  | ok _ =>
      rw [hknown] at h
      exact frameOf_eq_ok h

/-- The ways to take an argument of each key for the intervals of a category. -/
theorem joined_tables (s : Store) (category : String) :
    joined s.sliceRows s.argRows s.trackRows category
      = ((s.sliceRows.zip s.argRowsBySlice).filter (·.1.category == some category)).flatMap
          fun (slice, args) =>
            (argTexts args "address").flatMap fun address =>
              (argTexts args "write_bytes").flatMap fun writeBytes =>
                (argTexts args "read_bytes").map fun readBytes =>
                  { ts := slice.ts, dur := slice.dur
                    track :=
                      (s.trackRows.find? fun track => (track.id : Int) == slice.track).map (·.name)
                    name := slice.name, address, writeBytes, readBytes } := by
  have hfound : s.sliceRows.filter (·.category == some category)
      = ((s.sliceRows.zip s.argRowsBySlice).filter
          (·.1.category == some category)).map (·.1) := by
    have hlength : s.sliceRows.length ≤ s.argRowsBySlice.length := by
      simp [sliceRows, argRowsBySlice]
    conv_lhs => rw [← List.map_fst_zip hlength, List.filter_map]
    rfl
  unfold joined
  dsimp only
  rw [hfound, leftJoin_eq_map fun row _ => filter_number_le s.nodup_trackRows row.1.track]
  simp only [joinArgs_eq, List.map_flatMap, List.flatMap_assoc, List.flatMap_map, List.map_map,
    List.map_flatMap]
  refine List.flatMap_congr ?_
  rintro ⟨slice, args⟩ hmem
  simp only [Function.comp_apply, filter_argRows (List.mem_of_mem_filter hmem)]
  rfl

/-- The list of transactions is what the joins of the frames give, sorted by time. -/
theorem transactions_eq_joined (s : Store) (category : String) :
    s.transactions category = do
      let slices ← s.sliceFrame
      let args ← s.argFrame
      let tracks ← s.trackFrame
      return (joined slices args tracks category).mergeSort fun a b => a.ts ≤ b.ts := by
  unfold transactions
  cases hslices : s.sliceFrame with
  | error failure => rfl
  | ok slices =>
      cases hargs : s.argFrame with
      | error failure => rfl
      | ok args =>
          cases htracks : s.trackFrame with
          | error failure => rfl
          | ok tracks =>
              obtain rfl := frameOf_eq_ok hslices
              obtain rfl := argFrame_eq_ok hargs
              obtain rfl := frameOf_eq_ok htracks
              change Except.ok _ = Except.ok _
              rw [joined_tables]

end Store

end LogicCapture.Trace
