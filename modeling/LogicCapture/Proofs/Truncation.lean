import Mathlib
import LogicCapture.Proofs.Leading

/-!
# Captures that are cut off

What is decoded of a capture ends at some octet, and nothing behind it matters. If the octets are
cut off before it, no read that would cross the cut succeeds, so reading fails: in the header, or at
the first chunk that is not there as a whole. The chunks in front of the cut are stored as they
would have been (`readPieces_cut`).
-/

namespace LogicCapture.Binary

open Failure (Malformed)
open Trace (Store)

variable {version : Version} {kind : DataKind}

/-! ## Everything that is decoded -/

def decodeChunks (version : Version) (kind : DataKind) : Nat → Decode (List Chunk)
  | 0 => pure []
  | n + 1 => do
    let chunk ← Chunk.decode version kind
    let chunks ← decodeChunks version kind n
    return chunk :: chunks

def decodeCapture : Decode (Header × List Chunk) := do
  let header ← Header.decode
  let chunks ← decodeChunks header.container.version header.dataKind header.chunkCount
  return (header, chunks)

theorem takes_decodeChunks (version : Version) (kind : DataKind) (n : Nat) :
    Takes (decodeChunks version kind n) fun chunks bytes =>
      ∃ ds : List (Layout version kind), ds.length = n ∧ chunks = ds.map Layout.chunk
        ∧ bytes = ds.flatMap Layout.encode := by
  induction n with
  | zero =>
      refine (Takes.pure []).congr fun chunks bytes => ?_
      constructor
      · rintro ⟨rfl, rfl⟩
        exact ⟨[], rfl, rfl, rfl⟩
      · rintro ⟨ds, hlength, rfl, rfl⟩
        obtain rfl := List.eq_nil_of_length_eq_zero hlength
        exact ⟨rfl, rfl⟩
  | succ n ih =>
      refine ((takes_decode version kind).bind fun d => ih.map (d.chunk :: ·)).congr
        fun chunks bytes => ?_
      constructor
      · rintro ⟨d, _, ⟨_, ⟨ds, rfl, rfl, rfl⟩, rfl⟩, rfl⟩
        exact ⟨d :: ds, rfl, rfl, rfl⟩
      · rintro ⟨_ | ⟨d, ds⟩, hlength, rfl, rfl⟩
        · cases hlength
        · exact ⟨d, _, ⟨_, ⟨ds, Nat.succ.inj hlength, rfl, rfl⟩, rfl⟩, rfl⟩

/-- What is decoded of a capture is all that it is written with. -/
theorem takes_decodeCapture :
    Takes decodeCapture fun (header, chunks) bytes =>
      ∃ c : Capture, header = c.header ∧ chunks = c.chunks.map Layout.chunk
        ∧ bytes = c.encode := by
  have hheader : Takes Header.decode fun header bytes =>
      ∃ valid : { header : Header // header.Valid }, header = valid.val
        ∧ bytes = valid.val.encode := by
    refine takes_decodeHeader.congr fun header bytes => ?_
    constructor
    · rintro ⟨hvalid, rfl⟩
      exact ⟨⟨header, hvalid⟩, rfl, rfl⟩
    · rintro ⟨⟨valid, hvalid⟩, rfl, rfl⟩
      exact ⟨hvalid, rfl⟩
  refine (hheader.bind fun valid =>
    (takes_decodeChunks _ _ valid.val.chunkCount).map (valid.val, ·)).congr fun decoded bytes => ?_
  constructor
  · rintro ⟨⟨header, hvalid⟩, _, ⟨_, ⟨ds, hlength, rfl, rfl⟩, rfl⟩, rfl⟩
    obtain ⟨container, kind, count⟩ := header
    change List (Layout container.version kind) at ds
    change ds.length = count at hlength
    subst hlength
    exact ⟨⟨container, kind, ds, hvalid⟩, rfl, rfl, rfl⟩
  · intro hcapture
    obtain ⟨header, chunks⟩ := decoded
    obtain ⟨c, rfl, rfl, rfl⟩ := hcapture
    exact ⟨⟨c.header, c.counted⟩, _, ⟨_, ⟨c.chunks, rfl, rfl, rfl⟩, rfl⟩, rfl⟩

theorem decodeCapture_eq_ok {c : Capture} {bytes : List UInt8} (h : c.encode <+: bytes) :
    decodeCapture { data := bytes.toArray } = .ok (c.header, c.chunks.map Layout.chunk)
      { data := bytes.toArray, pos := c.encode.length } := by
  have hstart : ({ data := bytes.toArray } : Cursor).Inside := Nat.zero_le _
  have hpos : ({ data := bytes.toArray } : Cursor).advance c.encode.length
      = { data := bytes.toArray, pos := c.encode.length } := by simp [Cursor.advance]
  rw [← hpos]
  exact (takes_decodeCapture hstart).mpr ⟨_, ⟨c, rfl, rfl, rfl⟩, .advance h⟩

/-! ## Chunks in front of a cut -/

/-- The chunks, from the first on, that end within this many octets. -/
def fitting : List (Layout version kind) → Nat → List (Layout version kind)
  | [], _ => []
  | d :: ds, size =>
    if d.encode.length ≤ size then d :: fitting ds (size - d.encode.length) else []

theorem fitting_append_rest (ds : List (Layout version kind)) (size : Nat) :
    ∃ rest, ds = fitting ds size ++ rest := by
  induction ds generalizing size with
  | nil => exact ⟨[], rfl⟩
  | cons d ds ih =>
      rw [fitting]
      split
      · obtain ⟨rest, hrest⟩ := ih (size - d.encode.length)
        exact ⟨rest, by rw [List.cons_append, ← hrest]⟩
      · exact ⟨d :: ds, rfl⟩

namespace Capture

def endOf (c : Capture) (i : Nat) : Nat :=
  c.header.encode.length + ((c.chunks.take (i + 1)).flatMap Layout.encode).length

def within (c : Capture) (size : Nat) : List (Layout c.container.version c.dataKind) :=
  (c.chunks.zipIdx.filter fun (_, i) => c.endOf i ≤ size).map (·.1)

end Capture

/-- The chunks that end within some octets are the first ones, up to one that does not fit. -/
theorem filter_ends_eq_fitting (ds : List (Layout version kind)) (start size : Nat) :
    (ds.zipIdx.filter fun (_, i) =>
        start + ((ds.take (i + 1)).flatMap Layout.encode).length ≤ size).map (·.1)
      = if start ≤ size then fitting ds (size - start) else [] := by
  induction ds generalizing start with
  | nil => split <;> rfl
  | cons d ds ih =>
      have hlater : ((ds.zipIdx 1).filter fun (_, i) =>
          start + (((d :: ds).take (i + 1)).flatMap Layout.encode).length ≤ size).map (·.1)
            = (ds.zipIdx.filter fun (_, i) => start + d.encode.length
                + ((ds.take (i + 1)).flatMap Layout.encode).length ≤ size).map (·.1) := by
        rw [show (1 : Nat) = 0 + 1 from rfl, List.zipIdx_succ, List.filter_map, List.map_map]
        simp [Function.comp_def, Nat.add_assoc]
      rw [ih] at hlater
      rw [List.zipIdx_cons, fitting]
      by_cases hd : start + d.encode.length ≤ size
      · have hfits : d.encode.length ≤ size - start := by omega
        have hleft : size - start - d.encode.length = size - (start + d.encode.length) := by omega
        rw [List.filter_cons_of_pos (by simpa using hd), List.map_cons, hlater, if_pos hd,
          if_pos (by omega), if_pos hfits, hleft]
      · rw [List.filter_cons_of_neg (by simpa using hd), hlater, if_neg hd]
        split
        · rw [if_neg (by omega)]
        · rfl

theorem Capture.within_eq_fitting (c : Capture) (size : Nat) :
    c.within size = if c.header.encode.length ≤ size
      then fitting c.chunks (size - c.header.encode.length) else [] :=
  filter_ends_eq_fitting c.chunks c.header.encode.length size

/-! ## Reading up to a cut -/

/-- Where no chunk stands at the cursor, reading fails and stores nothing. -/
theorem readChunks_of_no_chunk (config : Config) {header : Header} {cursor : Cursor}
    (hc : cursor.Inside)
    (h : ∀ d : Layout header.container.version header.dataKind, ¬d.encode <+: cursor.unread)
    (store : Store) (n : Nat) :
    ∃ failure : Failure, failure.Malformed
      ∧ Reader.readChunks config header cursor store (n + 1) = (some failure, store) := by
  cases hdecode : Chunk.decode header.container.version header.dataKind cursor with
  | error failure left =>
      exact ⟨failure, failsIn_decode _ _ hdecode, by rw [Reader.readChunks, hdecode]⟩
  | ok chunk cursor' =>
      obtain ⟨_, ⟨d, rfl, rfl⟩, hpasses⟩ := (takes_decode _ _ hc).mp hdecode
      exact absurd hpasses.isPrefix (h d)

/-- Of chunks that are cut off, reading stores those that end in front of the cut, and fails. -/
theorem readChunks_of_cut (config : Config) {header : Header} {cursor : Cursor}
    (hc : cursor.Inside) {ds : List (Layout header.container.version header.dataKind)}
    (hcut : cursor.unread <+: ds.flatMap Layout.encode)
    (hshort : cursor.unread.length < (ds.flatMap Layout.encode).length)
    (hconvertible : ∀ d ∈ ds, d.Convertible) (store : Store) :
    ∃ (failure : Failure) (events : _), failure.Malformed
      ∧ ((fitting ds cursor.unread.length).flatMap fun d => d.chunk.moments).mapM Moment.event
        = .ok events
      ∧ Reader.readChunks config header cursor store ds.length
        = (some failure, Reader.addEvents config header.dataKind store events) := by
  induction ds generalizing cursor store with
  | nil => exact absurd hshort (Nat.not_lt_zero _)
  | cons d ds ih =>
      rw [List.flatMap_cons] at hcut hshort
      rw [fitting]
      by_cases hfits : d.encode.length ≤ cursor.unread.length
      · -- the first chunk is in front of the cut
        have hpasses := Cursor.Passes.advance
          (List.prefix_of_prefix_length_le (List.prefix_append _ _) hcut hfits)
        have hunread := hpasses.unread_eq
        obtain ⟨hd, hds⟩ := List.forall_mem_cons.mp hconvertible
        obtain ⟨events, hevents⟩ := Moment.convertible_iff.mp hd
        rw [hunread] at hcut hshort
        rw [List.length_append, List.length_append] at hshort
        obtain ⟨failure, events', hmalformed, hevents', hread⟩ :=
          ih (hpasses.inside hc) ((List.prefix_append_right_inj _).mp hcut) (by omega) hds
            (Reader.addEvents config header.dataKind store events)
        refine ⟨failure, events ++ events', hmalformed, ?_, ?_⟩
        · rw [if_pos hfits, List.flatMap_cons]
          refine mapM_append_eq_ok_iff.mpr ⟨events, events', hevents, ?_, rfl⟩
          rw [hunread, List.length_append, Nat.add_sub_cancel_left]
          exact hevents'
        · rw [List.length_cons, readChunks_of_passes hc hpasses hevents, hread,
            Reader.addEvents_append]
      · -- the cut goes through the first chunk, so no chunk can be decoded
        have hbegins := List.prefix_of_prefix_length_le hcut
          (List.prefix_append d.encode (ds.flatMap Layout.encode)) (by omega)
        have hnone : ∀ d' : Layout header.container.version header.dataKind,
            ¬d'.encode <+: cursor.unread := by
          intro d' hd'
          obtain ⟨-, hsame⟩ := Layout.unique (List.prefix_refl d.encode) (hd'.trans hbegins)
          exact hfits (hsame ▸ hd'.length_le)
        obtain ⟨failure, hmalformed, hread⟩ :=
          readChunks_of_no_chunk config hc hnone store ds.length
        exact ⟨failure, [], hmalformed, by rw [if_neg hfits]; rfl, hread⟩

theorem counters_addEvents (config : Config) (kind : DataKind) (store : Store)
    (events : List (Int × Float)) :
    store.counters.toList <+: (Reader.addEvents config kind store events).counters.toList := by
  by_cases h : events = []
  · subst h
    exact List.prefix_refl _
  · rw [Reader.addEvents_of_ne_nil h]
    simp

theorem Capture.valid_header (c : Capture) : c.header.Valid := c.counted

/-- A capture that is cut off in its header begins with no header. -/
theorem Capture.no_header_of_cut {c : Capture} {n : Nat} (hn : n < c.header.encode.length)
    {header : Header} (hvalid : header.Valid) : ¬header.encode <+: c.encode.take n := by
  intro hbegins
  have hwhole : header.encode <+: c.encode := hbegins.trans (List.take_prefix n c.encode)
  obtain ⟨-, hsame⟩ := takes_decodeHeader.unique ⟨hvalid, rfl⟩ ⟨c.valid_header, rfl⟩ hwhole
    (List.prefix_append c.header.encode _)
  have hlength := hbegins.length_le
  rw [← hsame, List.length_take] at hlength
  omega

theorem ending_eq_some {outcome : EStateM.Result Failure Reader Unit} {failure : Failure}
    {left : Reader} (h : ending outcome = (some failure, left)) :
    outcome = .error failure left := by
  cases outcome with
  | ok _ reader => cases h
  | error _ reader =>
      cases h
      rfl

/-- A capture that is cut off fails, with the moments of the chunks in front of the cut stored. -/
theorem finish_of_cut (config : Config) {c : Capture} {events : List (Int × Float)}
    (hevents : c.moments.mapM Moment.event = .ok events) {n : Nat} (hn : n < c.encode.length) :
    ∃ (failure : Failure) (left : Reader),
      Reader.finish { config, buffer := (c.encode.take n).toArray } = .error failure left
        ∧ failure.Malformed
        ∧ Stored config c.dataKind ((c.within n).flatMap fun d => d.chunk.moments) left.store
        ∧ left.store.counters.toList
          <+: (Reader.addEvents config c.dataKind {} events).counters.toList := by
  rw [Capture.within_eq_fitting]
  by_cases hheader : c.header.encode.length ≤ n
  · -- behind the header some chunks are there as a whole
    rw [if_pos hheader]
    rw [Capture.encode, List.length_append] at hn
    have hcut : c.encode.take n = c.header.encode
        ++ (c.chunks.flatMap Layout.encode).take (n - c.header.encode.length) := by
      rw [Capture.encode, List.take_append, List.take_of_length_le hheader]
    obtain ⟨cursor, hinside, hunread, hending⟩ := ending_of_header config c.valid_header
      ((c.chunks.flatMap Layout.encode).take (n - c.header.encode.length))
    have hlength : cursor.unread.length = n - c.header.encode.length := by
      rw [hunread, List.length_take]
      omega
    have hshort : cursor.unread.length < (c.chunks.flatMap Layout.encode).length := by omega
    have hconvertible : ∀ d ∈ c.chunks, d.Convertible := fun d hd m hm =>
      Capture.convertible_iff.mpr ⟨events, hevents⟩ m (List.mem_flatMap.mpr ⟨d, hd, hm⟩)
    obtain ⟨failure, stored, hmalformed, hstored, hread⟩ :=
      @readChunks_of_cut config c.header cursor hinside c.chunks (hunread ▸ List.take_prefix _ _)
        hshort hconvertible {}
    rw [hlength] at hstored
    change Reader.readChunks config c.header cursor {} c.header.chunkCount = _ at hread
    rw [← hcut, hread] at hending
    refine ⟨failure, _, ending_eq_some hending, hmalformed,
      stored_addEvents config c.dataKind hstored, ?_⟩
    -- the events stored are the first ones of the whole capture
    obtain ⟨rest, hrest⟩ := fitting_append_rest c.chunks (n - c.header.encode.length)
    rw [Capture.moments, hrest, List.flatMap_append, mapM_append_eq_ok_iff] at hevents
    obtain ⟨stored', others, hstored', -, rfl⟩ := hevents
    obtain rfl : stored' = stored := Except.ok.inj (hstored'.symm.trans hstored)
    rw [← Reader.addEvents_append]
    exact counters_addEvents config c.dataKind _ others
  · -- the cut goes through the header
    rw [if_neg hheader]
    obtain ⟨failure, hmalformed, hending⟩ := ending_of_no_header config
      fun header hvalid => Capture.no_header_of_cut (Nat.lt_of_not_le hheader) hvalid
    refine ⟨failure, _, ending_eq_some hending, hmalformed, ?_, List.nil_prefix⟩
    exact @stored_addEvents config c.dataKind [] [] rfl

/-! ## Reading all of a capture -/

/-- When reading succeeds, decoding ends behind the octets of a capture. Cut off anywhere in front
of that position, reading fails, and it has stored the moments of exactly those chunks that end in
front of the cut, which are the first of all. Anything that begins with the same octets is read as
well, and to the same header and store. -/
theorem readPieces_cut (config : Config) {pieces : List (List UInt8)} {reader : Reader}
    (h : readPieces config pieces = .ok () reader) :
    ∃ (c : Capture) (cursor : Cursor),
      decodeCapture { data := pieces.flatten.toArray }
          = .ok (c.header, c.chunks.map Layout.chunk) cursor
        ∧ reader.header = some c.header
        ∧ cursor.pos = c.encode.length
        ∧ pieces.flatten.take cursor.pos = c.encode
        ∧ (∀ n < cursor.pos, ∀ cut : List (List UInt8), cut.flatten = pieces.flatten.take n →
          ∃ failure left, readPieces config cut = .error failure left
            ∧ failure.Malformed
            ∧ Stored config c.dataKind ((c.within n).flatMap fun d => d.chunk.moments) left.store
            ∧ left.store.counters.toList <+: reader.store.counters.toList)
        ∧ ∀ others : List (List UInt8), pieces.flatten.take cursor.pos <+: others.flatten →
          ∃ reader', readPieces config others = .ok () reader'
            ∧ reader'.header = reader.header ∧ reader'.store = reader.store := by
  rw [readPieces_eq, finish_eq_ok_iff] at h
  obtain ⟨c, t, events, hflatten, hevents, rfl⟩ := h
  have htake : pieces.flatten.take c.encode.length = c.encode := by
    rw [hflatten, List.take_left]
  refine ⟨c, _, decodeCapture_eq_ok ⟨t, hflatten.symm⟩, rfl, rfl, htake, ?_, ?_⟩
  · intro n hn cut hcut
    rw [hflatten, List.take_append_of_le_length (Nat.le_of_lt hn)] at hcut
    rw [readPieces_eq, hcut]
    exact finish_of_cut config hevents hn
  · intro others hothers
    rw [htake] at hothers
    obtain ⟨t', ht'⟩ := hothers
    have hfinish : Reader.finish { config, buffer := others.flatten.toArray } = .ok () _ :=
      finish_eq_ok_iff.mpr ⟨c, t', events, ht'.symm, hevents, rfl⟩
    rw [← readPieces_eq] at hfinish
    exact ⟨_, hfinish, rfl, rfl⟩

/-- A line that is high for a second, twice. -/
def pulses : Capture where
  container := .taggedV1
  dataKind := .digital
  chunks :=
    [({ level := 1, rate := 0, start := 0, finish := 0x4000000000000000
        transitions := [0x3FF0000000000000], length_lt := by decide } : DigitalV1),
      ({ level := 1, rate := 0, start := 0x4000000000000000, finish := 0x4010000000000000
         transitions := [0x4008000000000000], length_lt := by decide } : DigitalV1)]
  counted := (by decide : 2 < 2 ^ 63)

/-- The pulses are read from two pieces. Without the last octet reading fails, with the first of
their samples stored. -/
theorem readPieces_cut_pulses :
    ∃ reader, readPieces {} [pulses.encode.take 7, pulses.encode.drop 7] = .ok () reader
      ∧ ∃ failure left, readPieces {} [pulses.encode.take (pulses.encode.length - 1)]
          = .error failure left
        ∧ failure.Malformed
        ∧ left.store.counters.toList <+: reader.store.counters.toList := by
  obtain ⟨events, hevents⟩ : ∃ events, pulses.moments.mapM Moment.event = .ok events := ⟨_, rfl⟩
  have hflatten : [pulses.encode.take 7, pulses.encode.drop 7].flatten = pulses.encode := by simp
  have hread : Reader.finish { buffer := pulses.encode.toArray } = .ok () _ :=
    finish_eq_ok_iff.mpr ⟨pulses, [], events, (List.append_nil _).symm, hevents, rfl⟩
  rw [← hflatten, ← readPieces_eq] at hread
  obtain ⟨c, cursor, hdecode, -, -, -, hcut, -⟩ := readPieces_cut {} hread
  rw [hflatten] at hdecode hcut
  rw [decodeCapture_eq_ok (List.prefix_refl pulses.encode)] at hdecode
  obtain ⟨-, rfl⟩ := EStateM.Result.ok.inj hdecode
  have hlast : pulses.encode.length - 1 < pulses.encode.length :=
    Nat.sub_one_lt (mt List.length_eq_zero_iff.mp pulses.encode_ne_nil)
  obtain ⟨failure, left, hfails, hmalformed, -, hcounters⟩ :=
    hcut _ hlast [pulses.encode.take (pulses.encode.length - 1)] (List.append_nil _)
  exact ⟨_, hread, failure, left, hfails, hmalformed, hcounters⟩

end LogicCapture.Binary
