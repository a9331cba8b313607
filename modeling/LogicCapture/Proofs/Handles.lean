import Mathlib
import LogicCapture.Trace.Rows

/-!
# Handles and the texts they stand for

A pool grows at its end only, so a handle keeps its text (`GrowsTo.text?_eq`), and a text keeps its
handle. An interval is turned into handles one text after the other, with the pool growing in
between; in the pool that is left, all handles of the new slice stand for what the interval says
(`addInterval_spec`). An argument may come with the handle of its key: then it says the text of that
handle, whatever its key is.
-/

namespace LogicCapture.Trace

/-! ## A growing pool -/

namespace StringPool

variable {pool later last : StringPool} {text : String} {handle : Nat}

/-- The later pool has the texts of this one at the same places. -/
def GrowsTo (pool later : StringPool) : Prop := pool.texts.toList <+: later.texts.toList

theorem GrowsTo.refl (pool : StringPool) : pool.GrowsTo pool := List.prefix_refl _

theorem GrowsTo.trans (h : pool.GrowsTo later) (h' : later.GrowsTo last) : pool.GrowsTo last :=
  List.IsPrefix.trans h h'

theorem GrowsTo.size_le (h : pool.GrowsTo later) : pool.texts.size ≤ later.texts.size := by
  simpa using List.IsPrefix.length_le h

theorem lt_of_text? (h : pool.text? handle = some text) : handle < pool.texts.size :=
  (Array.getElem?_eq_some_iff.mp h).1

theorem exists_text? (h : handle < pool.texts.size) : ∃ text, pool.text? handle = some text :=
  ⟨_, Array.getElem?_eq_getElem h⟩

theorem GrowsTo.text?_eq (h : pool.GrowsTo later) (hhandle : handle < pool.texts.size) :
    later.text? handle = pool.text? handle := by
  obtain ⟨rest, hrest⟩ := h
  rw [text?, text?, ← Array.getElem?_toList, ← hrest, List.getElem?_append_left (by simpa),
    Array.getElem?_toList]

theorem GrowsTo.text? (h : pool.GrowsTo later) (hhandle : pool.text? handle = some text) :
    later.text? handle = some text :=
  (h.text?_eq (lt_of_text? hhandle)).trans hhandle

theorem growsTo_intern (pool : StringPool) (text : String) :
    pool.GrowsTo (pool.intern text).2 := by
  rw [GrowsTo, texts_intern]
  split
  · exact List.prefix_refl _
  · rw [Array.toList_push]
    exact List.prefix_append _ _

theorem intern_of_text? (h : pool.text? handle = some text) :
    pool.intern text = (handle, pool) := by
  have hindex := (pool.index_iff text handle).mpr h
  unfold intern
  split
  · next found hfound =>
    rw [hindex] at hfound
    rw [Option.some.inj hfound]
  · next hnone =>
    rw [hindex] at hnone
    cases hnone

theorem nodup_texts (pool : StringPool) : pool.texts.toList.Nodup := by
  rw [List.nodup_iff_getElem?_ne_getElem?]
  intro i j hij hj hsame
  rw [Array.length_toList] at hj
  rw [Array.getElem?_toList, Array.getElem?_toList, Array.getElem?_eq_getElem hj] at hsame
  have hi := (pool.index_iff _ i).mpr hsame
  rw [(pool.index_iff _ j).mpr (Array.getElem?_eq_getElem hj)] at hi
  exact absurd (Option.some.inj hi) (Nat.ne_of_gt hij)

end StringPool

open StringPool (lt_of_text?)

/-! ## What an interval says -/

/-- What an interval says, track apart: its times and its texts, with no handles left. -/
structure Reading where
  ts : Int
  dur : Int
  category : Option String
  name : String
  args : List (String × ArgValue)
  deriving Repr, DecidableEq

/-- The key of the argument is a text or a handle that has been given out. -/
def Arg.Known (pool : StringPool) (arg : Arg) : Prop :=
  ∀ handle, arg.keyHandle = some handle → handle < pool.texts.size

/-- What the argument says. The handle of its key counts if it has one. -/
def Arg.reading (pool : StringPool) (arg : Arg) : String × ArgValue :=
  ((arg.keyHandle.bind pool.text?).getD arg.key, arg.value)

def Interval.Known (pool : StringPool) (interval : Interval) : Prop :=
  ∀ arg ∈ interval.args, arg.Known pool

def Interval.reading (pool : StringPool) (interval : Interval) : Reading :=
  { ts := interval.ts, dur := interval.dur, category := interval.category, name := interval.name
    args := interval.args.map (Arg.reading pool) }

theorem Arg.Known.mono {pool later : StringPool} {arg : Arg} (h : arg.Known pool)
    (hgrows : pool.GrowsTo later) : arg.Known later :=
  fun handle hhandle => lt_of_lt_of_le (h handle hhandle) hgrows.size_le

/-- Handles that have been given out say the same in every later pool. -/
theorem Arg.Known.reading_eq {pool later : StringPool} {arg : Arg} (h : arg.Known pool)
    (hgrows : pool.GrowsTo later) : arg.reading later = arg.reading pool := by
  unfold Arg.reading
  cases hkey : arg.keyHandle with
  | none => rfl
  | some handle =>
      have hsame := hgrows.text?_eq (h handle hkey)
      rw [Option.bind_some, Option.bind_some, hsame]

theorem Interval.Known.mono {pool later : StringPool} {interval : Interval}
    (h : interval.Known pool) (hgrows : pool.GrowsTo later) : interval.Known later :=
  fun arg harg => (h arg harg).mono hgrows

theorem Interval.Known.reading_eq {pool later : StringPool} {interval : Interval}
    (h : interval.Known pool) (hgrows : pool.GrowsTo later) :
    interval.reading later = interval.reading pool := by
  have hargs : interval.args.map (Arg.reading later) = interval.args.map (Arg.reading pool) :=
    List.map_congr_left fun arg harg => (h arg harg).reading_eq hgrows
  rw [reading, reading, hargs]

/-! ## What handles stand for -/

/-- The stored value stands for this one. -/
def StoredValue.Means (pool : StringPool) : StoredValue → ArgValue → Prop
  | .flag stored, .flag value => stored = value
  | .text handle, .text value => pool.text? handle = some value
  | _, _ => False

structure StoredArg.Means (pool : StringPool) (stored : StoredArg) (arg : String × ArgValue) :
    Prop where
  key : pool.text? stored.key = some arg.1
  value : stored.value.Means pool arg.2

/-- The times of the slice are these, and its handles stand for these texts. -/
structure Slice.Means (pool : StringPool) (slice : Slice) (reading : Reading) : Prop where
  ts : slice.ts = reading.ts
  dur : slice.dur = reading.dur
  category : slice.category.map pool.text? = reading.category.map some
  name : pool.text? slice.name = some reading.name
  args : List.Forall₂ (StoredArg.Means pool) slice.args reading.args

/-- All handles of the slice have been given out. -/
structure Slice.Inside (pool : StringPool) (slice : Slice) : Prop where
  category : ∀ handle, slice.category = some handle → handle < pool.texts.size
  name : slice.name < pool.texts.size
  key : ∀ arg ∈ slice.args, arg.key < pool.texts.size
  value : ∀ arg ∈ slice.args, ∀ handle, arg.value = .text handle → handle < pool.texts.size

section Means

variable {pool later : StringPool}

theorem StoredArg.Means.mono {stored : StoredArg} {arg : String × ArgValue}
    (h : stored.Means pool arg) (hgrows : pool.GrowsTo later) : stored.Means later arg := by
  refine ⟨hgrows.text? h.key, ?_⟩
  have hvalue := h.value
  unfold StoredValue.Means at hvalue ⊢
  split at hvalue
  · exact hvalue
  · exact hgrows.text? hvalue
  · exact hvalue.elim

theorem Slice.Means.inside {slice : Slice} {reading : Reading} (h : slice.Means pool reading) :
    slice.Inside pool := by
  have hargs : ∀ stored ∈ slice.args, ∃ arg, stored.Means pool arg := by
    intro stored hstored
    obtain ⟨i, hi, rfl⟩ := List.getElem_of_mem hstored
    exact ⟨_, h.args.get hi (h.args.length_eq ▸ hi)⟩
  refine ⟨?_, lt_of_text? h.name, ?_, ?_⟩
  · intro handle hhandle
    have hcategory := h.category
    rw [hhandle, Option.map_some] at hcategory
    cases hreading : reading.category with
    | none => rw [hreading] at hcategory; cases hcategory
    | some text =>
        rw [hreading, Option.map_some] at hcategory
        exact lt_of_text? (Option.some.inj hcategory)
  · intro stored hstored
    obtain ⟨arg, harg⟩ := hargs stored hstored
    exact lt_of_text? harg.key
  · intro stored hstored handle hhandle
    obtain ⟨⟨key, value⟩, harg⟩ := hargs stored hstored
    have hvalue := harg.value
    rw [hhandle] at hvalue
    cases value with
    | flag => exact hvalue.elim
    | text => exact lt_of_text? hvalue

theorem Slice.Means.mono {slice : Slice} {reading : Reading} (h : slice.Means pool reading)
    (hgrows : pool.GrowsTo later) : slice.Means later reading where
  ts := h.ts
  dur := h.dur
  category := by
    rw [← h.category]
    exact Option.map_congr fun handle hhandle =>
      hgrows.text?_eq (h.inside.category handle hhandle)
  name := hgrows.text? h.name
  args := h.args.imp fun _ _ harg => harg.mono hgrows

theorem Slice.Inside.mono {slice : Slice} (h : slice.Inside pool) (hgrows : pool.GrowsTo later) :
    slice.Inside later where
  category handle hhandle := lt_of_lt_of_le (h.category handle hhandle) hgrows.size_le
  name := lt_of_lt_of_le h.name hgrows.size_le
  key arg harg := lt_of_lt_of_le (h.key arg harg) hgrows.size_le
  value arg harg handle hhandle := lt_of_lt_of_le (h.value arg harg handle hhandle) hgrows.size_le

end Means

/-! ## Texts become handles -/

namespace Store

theorem internOption_spec (pool : StringPool) (text : Option String) :
    pool.GrowsTo (internOption pool text).2
      ∧ (internOption pool text).1.map (internOption pool text).2.text? = text.map some := by
  cases text with
  | none => exact ⟨.refl pool, rfl⟩
  | some text => exact ⟨pool.growsTo_intern text, congrArg some (pool.text?_intern text)⟩

/-- The key comes first, as the handle that came with the argument or as a text. -/
theorem exists_key {pool : StringPool} {arg : Arg} (h : arg.Known pool) :
    ∃ key mid, pool.GrowsTo mid ∧ mid.text? key = some (arg.reading pool).1
      ∧ internArg pool arg = match arg.value with
        | .flag value => ({ key, value := .flag value }, mid)
        | .text value => ({ key, value := .text (mid.intern value).1 }, (mid.intern value).2) := by
  obtain ⟨key, value, keyHandle⟩ := arg
  cases keyHandle with
  | none =>
      refine ⟨_, _, pool.growsTo_intern key, pool.text?_intern key, ?_⟩
      cases value <;> rfl
  | some handle =>
      obtain ⟨text, htext⟩ := StringPool.exists_text? (h handle rfl)
      refine ⟨handle, pool, .refl pool, ?_, ?_⟩
      · rw [htext, Arg.reading, Option.bind_some, htext, Option.getD_some]
      · cases value <;> rfl

theorem internArg_spec {pool : StringPool} {arg : Arg} (h : arg.Known pool) :
    pool.GrowsTo (internArg pool arg).2
      ∧ (internArg pool arg).1.Means (internArg pool arg).2 (arg.reading pool) := by
  obtain ⟨key, mid, hgrows, hkey, heq⟩ := exists_key h
  have hreading : (arg.reading pool).2 = arg.value := rfl
  rw [heq]
  cases hvalue : arg.value with
  | flag value =>
      rw [hvalue] at hreading
      exact ⟨hgrows, hkey, by rw [hreading]; rfl⟩
  | text value =>
      rw [hvalue] at hreading
      have hgrows' := mid.growsTo_intern value
      exact ⟨hgrows.trans hgrows', hgrows'.text? hkey,
        by rw [hreading]; exact mid.text?_intern value⟩

theorem internArgs_spec {pool : StringPool} {args : List Arg} (h : ∀ arg ∈ args, arg.Known pool) :
    pool.GrowsTo (internArgs pool args).2
      ∧ List.Forall₂ (StoredArg.Means (internArgs pool args).2) (internArgs pool args).1
        (args.map (Arg.reading pool)) := by
  induction args generalizing pool with
  | nil => exact ⟨.refl pool, .nil⟩
  | cons arg args ih =>
      obtain ⟨harg, hargs⟩ := List.forall_mem_cons.mp h
      obtain ⟨hgrows, hmeans⟩ := internArg_spec harg
      obtain ⟨hgrows', hmeans'⟩ := ih fun arg harg => (hargs arg harg).mono hgrows
      have hreadings : args.map (Arg.reading (internArg pool arg).2)
          = args.map (Arg.reading pool) :=
        List.map_congr_left fun arg harg => (hargs arg harg).reading_eq hgrows
      rw [hreadings] at hmeans'
      exact ⟨hgrows.trans hgrows', .cons (hmeans.mono hgrows') hmeans'⟩

/-- An interval whose handles are known becomes a slice behind all others, which says the same in
the pool that is left. -/
theorem addInterval_spec {s : Store} {interval : Interval} (h : interval.Known s.strings) :
    ∃ strings slice, s.addInterval interval = { s with strings, slices := s.slices.push slice }
      ∧ s.strings.GrowsTo strings ∧ slice.track = interval.track
      ∧ slice.Means strings (interval.reading s.strings) := by
  obtain ⟨hcategory, hmeans⟩ := internOption_spec s.strings interval.category
  generalize hfirst : internOption s.strings interval.category = first at hcategory hmeans
  obtain ⟨category, strings₁⟩ := first
  have hname := strings₁.growsTo_intern interval.name
  have htext := strings₁.text?_intern interval.name
  generalize hsecond : strings₁.intern interval.name = second at hname htext
  obtain ⟨name, strings₂⟩ := second
  obtain ⟨hargs, hmeansArgs⟩ := internArgs_spec (h.mono (hcategory.trans hname))
  have hreadings := congrArg Reading.args (h.reading_eq (hcategory.trans hname))
  change interval.args.map (Arg.reading strings₂)
    = interval.args.map (Arg.reading s.strings) at hreadings
  rw [hreadings] at hmeansArgs
  refine ⟨_, { ts := interval.ts, dur := interval.dur, track := interval.track, category, name
               args := (internArgs strings₂ interval.args).1 }, ?_,
    hcategory.trans (hname.trans hargs), rfl, rfl, rfl, ?_, hargs.text? htext, hmeansArgs⟩
  · rw [addInterval, hfirst]
    dsimp only
    rw [hsecond]
  · -- the category has its handle from a pool that has grown twice since
    dsimp only [Interval.reading] at hmeans ⊢
    rw [← hmeans]
    refine Option.map_congr fun handle hhandle => ?_
    rw [hhandle] at hmeans
    obtain ⟨text, -, htext⟩ := Option.map_eq_some_iff.mp hmeans.symm
    exact (hname.trans hargs).text?_eq (lt_of_text? htext.symm)

/-! ## Handles become texts -/

section Resolve

variable {s later : Store} {slice : Slice}

def readingOf (s : Store) (slice : Slice) : Reading :=
  { ts := slice.ts, dur := slice.dur, category := slice.category.map s.resolve
    name := s.resolve slice.name, args := slice.args.map s.resolveArg }

theorem resolve_of_text? {handle : Nat} {text : String} (h : s.strings.text? handle = some text) :
    s.resolve handle = text := by
  rw [resolve, h, Option.getD_some]

theorem resolve_mono (hgrows : s.strings.GrowsTo later.strings) {handle : Nat}
    (h : handle < s.strings.texts.size) : later.resolve handle = s.resolve handle := by
  rw [resolve, resolve, hgrows.text?_eq h]

/-- The handles of a slice that have been given out resolve as before. -/
theorem readingOf_mono (hgrows : s.strings.GrowsTo later.strings) (h : slice.Inside s.strings) :
    later.readingOf slice = s.readingOf slice := by
  have hcategory : slice.category.map later.resolve = slice.category.map s.resolve :=
    Option.map_congr fun handle hhandle => resolve_mono hgrows (h.category handle hhandle)
  have hargs : slice.args.map later.resolveArg = slice.args.map s.resolveArg := by
    refine List.map_congr_left fun arg harg => ?_
    have hkey := resolve_mono hgrows (h.key arg harg)
    have hvalue := h.value arg harg
    unfold resolveArg
    cases hstored : arg.value with
    | flag value => rw [hkey]
    | text handle =>
        dsimp only
        rw [hkey, resolve_mono hgrows (hvalue handle hstored)]
  rw [readingOf, readingOf, hcategory, hargs, resolve_mono hgrows h.name]

theorem resolveArg_of_means {stored : StoredArg} {arg : String × ArgValue}
    (h : stored.Means s.strings arg) : s.resolveArg stored = arg := by
  obtain ⟨key, value⟩ := arg
  have hvalue := h.value
  unfold StoredValue.Means at hvalue
  unfold resolveArg
  rw [resolve_of_text? h.key]
  split at hvalue
  · next hstored heq =>
    dsimp only at heq
    rw [hstored, heq, hvalue]
  · next hstored heq =>
    dsimp only at heq
    rw [hstored, heq]
    dsimp only
    rw [resolve_of_text? hvalue]
  · exact hvalue.elim

/-- A slice says what its handles stand for. -/
theorem readingOf_of_means {reading : Reading} (h : slice.Means s.strings reading) :
    s.readingOf slice = reading := by
  have hcategory : slice.category.map s.resolve = reading.category := by
    have hmeans := h.category
    cases hslice : slice.category with
    | none =>
        rw [hslice] at hmeans
        exact (Option.map_eq_none_iff.mp hmeans.symm).symm
    | some handle =>
        rw [hslice, Option.map_some] at hmeans
        obtain ⟨text, hreading, htext⟩ := Option.map_eq_some_iff.mp hmeans.symm
        rw [hreading, Option.map_some, resolve_of_text? htext.symm]
  have hargs : slice.args.map s.resolveArg = reading.args := by
    have hall := List.forall₂_map_left_iff.mpr
      (h.args.imp fun _ _ harg => resolveArg_of_means harg)
    exact List.forall₂_eq_eq_eq ▸ hall
  rw [readingOf, h.ts, h.dur, hcategory, hargs, resolve_of_text? h.name]

end Resolve

end Store

end LogicCapture.Trace
