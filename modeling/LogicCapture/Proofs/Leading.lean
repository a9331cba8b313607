import Mathlib
import LogicCapture.Proofs.Failures

/-!
# Chunks are stored whole or not at all

Whatever octets a reader is given, it comes through some of the chunks that the header announces:
those in front that are written in the layout of the capture and have no time that cannot be
converted. At each of them all that can fail comes before anything is stored
(`readChunks_succ_cases`). So a run stores the moments of the leading chunks, as many as there can
be, and nothing of the chunk behind them, and it fails just when these are fewer than announced
(`readPieces_leading`).
-/

namespace LogicCapture.Binary

open Trace (Store)

variable {version : Version} {kind : DataKind}

/-! ## Leading chunks -/

def Layout.Convertible (d : Layout version kind) : Prop :=
  ∀ m ∈ d.chunk.moments, ∃ ts, Time.ofSeconds m.1 = .ok ts

/-- The chunks stand one behind the other in front of the octets, and all their times can be
converted. -/
structure Leads (ds : List (Layout version kind)) (bytes : List UInt8) : Prop where
  written : ds.flatMap Layout.encode <+: bytes
  convertible : ∀ d ∈ ds, d.Convertible

/-- The chunks lead, and of at most `n` chunks no more could. -/
structure Leading (n : Nat) (ds : List (Layout version kind)) (bytes : List UInt8) : Prop
    extends Leads ds bytes where
  length_le : ds.length ≤ n
  greatest : ∀ ds' : List (Layout version kind), Leads ds' bytes → ds'.length ≤ n →
    ds'.length ≤ ds.length

theorem Layout.unique {d d' : Layout version kind} {bytes : List UInt8}
    (h : d.encode <+: bytes) (h' : d'.encode <+: bytes) :
    d'.chunk = d.chunk ∧ d'.encode = d.encode :=
  (takes_decode version kind).unique ⟨d, rfl, rfl⟩ ⟨d', rfl, rfl⟩ h h'

theorem Leads.nil (bytes : List UInt8) : Leads ([] : List (Layout version kind)) bytes :=
  ⟨List.nil_prefix, fun _ hd => absurd hd List.not_mem_nil⟩

theorem Leads.cons {d : Layout version kind} {ds : List (Layout version kind)}
    {bytes : List UInt8} (hd : d.Convertible) (h : Leads ds bytes) :
    Leads (d :: ds) (d.encode ++ bytes) := by
  refine ⟨?_, List.forall_mem_cons.mpr ⟨hd, h.convertible⟩⟩
  rw [List.flatMap_cons]
  exact (List.prefix_append_right_inj _).mpr h.written

theorem Leads.head {d : Layout version kind} {ds : List (Layout version kind)}
    {bytes : List UInt8} (h : Leads (d :: ds) bytes) : d.encode <+: bytes ∧ d.Convertible := by
  have hwritten := h.written
  rw [List.flatMap_cons] at hwritten
  exact ⟨(List.prefix_append _ _).trans hwritten, h.convertible d List.mem_cons_self⟩

theorem Leads.tail {d d' : Layout version kind} {ds : List (Layout version kind)}
    {bytes : List UInt8} (h : Leads (d' :: ds) (d.encode ++ bytes)) : Leads ds bytes := by
  refine ⟨?_, fun x hx => h.convertible x (List.mem_cons_of_mem _ hx)⟩
  obtain ⟨-, hsame⟩ := Layout.unique (List.prefix_append d.encode bytes) h.head.1
  have hwritten := h.written
  rw [List.flatMap_cons, hsame] at hwritten
  exact (List.prefix_append_right_inj _).mp hwritten

/-! ## One chunk -/

/-- A chunk that stands at the cursor and has events is passed over, and its events are stored. -/
theorem readChunks_of_passes {config : Config} {header : Header} {cursor cursor' : Cursor}
    (hc : cursor.Inside) {d : Layout header.container.version header.dataKind}
    (hpasses : cursor.Passes d.encode cursor') {events : List (Int × Float)}
    (hevents : d.chunk.moments.mapM Moment.event = .ok events) (store : Store) (n : Nat) :
    Reader.readChunks config header cursor store (n + 1)
      = Reader.readChunks config header cursor'
          (Reader.addEvents config header.dataKind store events) n := by
  have hdecode := (takes_decode _ _ hc).mpr ⟨_, ⟨d, rfl, rfl⟩, hpasses⟩
  rw [Reader.readChunks, hdecode]
  dsimp only
  rw [events_eq_mapM d.sound, hevents]

/-- Either a chunk with convertible times stands at the cursor and its events are stored, or there
is no such chunk; then reading ends, and nothing is stored. -/
theorem readChunks_succ_cases (config : Config) (header : Header) {cursor : Cursor}
    (hc : cursor.Inside) (store : Store) (n : Nat) :
    (∃ (d : Layout header.container.version header.dataKind) (cursor' : Cursor) (events : _),
        cursor.Passes d.encode cursor' ∧ d.chunk.moments.mapM Moment.event = .ok events
          ∧ Reader.readChunks config header cursor store (n + 1)
            = Reader.readChunks config header cursor'
                (Reader.addEvents config header.dataKind store events) n)
      ∨ ((∀ d : Layout header.container.version header.dataKind,
            d.encode <+: cursor.unread → ¬d.Convertible)
          ∧ ∃ failure,
            Reader.readChunks config header cursor store (n + 1) = (some failure, store)) := by
  cases hdecode : Chunk.decode header.container.version header.dataKind cursor with
  | error failure left =>
      refine Or.inr ⟨fun d hbegins _ => ?_, failure, by rw [Reader.readChunks, hdecode]⟩
      have hok := (takes_decode _ _ hc).mpr ⟨_, ⟨d, rfl, rfl⟩, Cursor.Passes.advance hbegins⟩
      rw [hdecode] at hok
      cases hok
  | ok chunk cursor' =>
      obtain ⟨_, ⟨d, rfl, rfl⟩, hpasses⟩ := (takes_decode _ _ hc).mp hdecode
      cases hevents : d.chunk.moments.mapM Moment.event with
      | ok events =>
          exact Or.inl ⟨d, cursor', events, hpasses, hevents,
            readChunks_of_passes hc hpasses hevents store n⟩
      | error failure =>
          refine Or.inr ⟨fun d' hbegins hconvertible => ?_, failure, ?_⟩
          · obtain ⟨hchunk, -⟩ := Layout.unique hpasses.isPrefix hbegins
            rw [Layout.Convertible, hchunk] at hconvertible
            obtain ⟨events, hok⟩ := Moment.convertible_iff.mp hconvertible
            rw [hevents] at hok
            cases hok
          · rw [Reader.readChunks, hdecode]
            dsimp only
            rw [events_eq_mapM d.sound, hevents]

/-! ## All chunks -/

/-- Reading chunks stores the moments of the leading ones, and fails just when they are too few. -/
theorem exists_leading (config : Config) (header : Header) {cursor : Cursor}
    (hc : cursor.Inside) (store : Store) (n : Nat) :
    ∃ (ds : List (Layout header.container.version header.dataKind)) (events : _),
      Leading n ds cursor.unread
        ∧ (ds.flatMap fun d => d.chunk.moments).mapM Moment.event = .ok events
        ∧ (Reader.readChunks config header cursor store n).2
          = Reader.addEvents config header.dataKind store events
        ∧ ((Reader.readChunks config header cursor store n).1.isSome ↔ ds.length < n) := by
  induction n generalizing cursor store with
  | zero =>
      refine ⟨[], [], ⟨.nil _, Nat.le_refl _, fun _ _ hlength => hlength⟩, rfl, rfl, ?_⟩
      simp [Reader.readChunks]
  | succ n ih =>
      rcases readChunks_succ_cases config header hc store n with
        ⟨d, cursor', events, hpasses, hevents, hread⟩ | ⟨hnone, failure, hread⟩
      · obtain ⟨ds, events', hleading, hevents', hstore, hfails⟩ :=
          ih (hpasses.inside hc) (Reader.addEvents config header.dataKind store events)
        have hconvertible : d.Convertible := Moment.convertible_iff.mpr ⟨events, hevents⟩
        refine ⟨d :: ds, events ++ events', ⟨?_, ?_, ?_⟩, ?_, ?_, ?_⟩
        · rw [hpasses.unread_eq]
          exact hleading.toLeads.cons hconvertible
        · exact Nat.succ_le_succ hleading.length_le
        · intro ds' hds' hlength
          rcases ds' with _ | ⟨d', ds'⟩
          · exact Nat.zero_le _
          · rw [hpasses.unread_eq] at hds'
            exact Nat.succ_le_succ
              (hleading.greatest ds' hds'.tail (Nat.le_of_succ_le_succ hlength))
        · exact mapM_append_eq_ok_iff.mpr ⟨events, events', hevents, hevents', rfl⟩
        · rw [hread, hstore, Reader.addEvents_append]
        · rw [hread, hfails, List.length_cons]
          exact Nat.succ_lt_succ_iff.symm
      · refine ⟨[], [], ⟨.nil _, Nat.zero_le _, ?_⟩, rfl, by rw [hread]; rfl, by simp [hread]⟩
        intro ds' hds' _
        rcases ds' with _ | ⟨d', ds'⟩
        · exact Nat.le_refl _
        · obtain ⟨hbegins, hconvertible⟩ := hds'.head
          exact absurd hconvertible (hnone d' hbegins)

/-! ## All of a capture -/

theorem ending_of_no_header (config : Config) {bytes : List UInt8}
    (h : ∀ header : Header, header.Valid → ¬header.encode <+: bytes) :
    ∃ failure : Failure, failure.Malformed
      ∧ ending (Reader.finish { config, buffer := bytes.toArray })
        = (some failure, { config, buffer := bytes.toArray }) := by
  have hstart : ({ data := bytes.toArray } : Cursor).Inside := Nat.zero_le _
  unfold Reader.finish
  split
  · exact ⟨.emptyBinary, rfl, rfl⟩
  · cases hdecode : Header.decode { data := bytes.toArray } with
    | error failure left => exact ⟨failure, failsIn_decodeHeader hdecode, rfl⟩
    | ok header cursor =>
        obtain ⟨_, ⟨hvalid, rfl⟩, hpasses⟩ := (takes_decodeHeader hstart).mp hdecode
        exact absurd hpasses.isPrefix (h header hvalid)

/-- Behind its header a capture is read chunk by chunk. -/
theorem ending_of_header (config : Config) {header : Header} (hvalid : header.Valid)
    (rest : List UInt8) :
    ∃ cursor : Cursor, cursor.Inside ∧ cursor.unread = rest
      ∧ ending (Reader.finish { config, buffer := (header.encode ++ rest).toArray })
        = ((Reader.readChunks config header cursor {} header.chunkCount).1,
          { config, buffer := (header.encode ++ rest).toArray, header := some header
            store := (Reader.readChunks config header cursor {} header.chunkCount).2 }) := by
  have hstart : ({ data := (header.encode ++ rest).toArray } : Cursor).Inside := Nat.zero_le _
  have hpasses : ({ data := (header.encode ++ rest).toArray } : Cursor).Passes header.encode _ :=
    .advance (List.prefix_append header.encode rest)
  have hdecode := (takes_decodeHeader hstart).mpr ⟨_, ⟨hvalid, rfl⟩, hpasses⟩
  refine ⟨_, hpasses.inside hstart, List.append_cancel_left hpasses.unread_eq.symm, ?_⟩
  have hnonempty : ¬(header.encode ++ rest).toArray.isEmpty = true := by
    obtain ⟨container, kind, count⟩ := header
    cases container <;> exact Bool.false_ne_true
  unfold Reader.finish
  rw [if_neg hnonempty]
  dsimp only
  rw [hdecode]
  dsimp only
  generalize Reader.readChunks config header _ {} header.chunkCount = outcome
  obtain ⟨_ | failure, store⟩ := outcome <;> rfl

theorem Stored.size_tracks {config : Config} {moments : List Moment} {store : Store}
    (h : Stored config kind moments store) :
    store.tracks.size = if store.counters.isEmpty then 0 else 1 := by
  have hcounters := h.counters
  rw [← Array.length_toList, h.tracks, ← Array.isEmpty_toList]
  generalize store.counters.toList = counters at hcounters ⊢
  cases hcounters <;> rfl

/-- Whatever the octets are, some moments are stored and nothing else. -/
theorem exists_stored_finish (config : Config) (bytes : List UInt8) :
    ∃ kind moments, Stored config kind moments
      (ending (Reader.finish { config, buffer := bytes.toArray })).2.store := by
  by_cases hheader : ∃ header : Header, header.Valid ∧ header.encode <+: bytes
  · obtain ⟨header, hvalid, rest, rfl⟩ := hheader
    obtain ⟨cursor, hinside, -, hending⟩ := ending_of_header config hvalid rest
    obtain ⟨ds, events, -, hevents, hstore, -⟩ :=
      exists_leading config header hinside {} header.chunkCount
    rw [hending, hstore]
    exact ⟨header.dataKind, _, stored_addEvents config header.dataKind hevents⟩
  · obtain ⟨failure, -, hending⟩ := ending_of_no_header config
      fun header hvalid hbegins => hheader ⟨header, hvalid, hbegins⟩
    rw [hending]
    exact ⟨.digital, [], @stored_addEvents config .digital [] [] rfl⟩

/-- Reading fails if the octets begin with no header, and then nothing is stored. Behind a header it
stores the moments of the leading chunks and nothing else, and fails just when they are fewer than
announced. There is one track if there is a sample, and none otherwise. -/
theorem readPieces_leading (config : Config) (pieces : List (List UInt8)) :
    ∃ failure reader, ending (readPieces config pieces) = (failure, reader)
      ∧ ((∃ (header : Header) (rest : List UInt8)
            (ds : List (Layout header.container.version header.dataKind)),
          header.Valid ∧ pieces.flatten = header.encode ++ rest
            ∧ Leading header.chunkCount ds rest
            ∧ reader.header = some header
            ∧ Stored config header.dataKind (ds.flatMap fun d => d.chunk.moments) reader.store
            ∧ (failure.isSome ↔ ds.length < header.chunkCount))
          ∨ ((∀ header : Header, header.Valid → ¬header.encode <+: pieces.flatten)
            ∧ reader.header = none ∧ reader.store = {} ∧ failure.isSome))
      ∧ reader.store.tracks.size = if reader.store.counters.isEmpty then 0 else 1 := by
  rw [readPieces_eq]
  by_cases hheader : ∃ header : Header, header.Valid ∧ header.encode <+: pieces.flatten
  · obtain ⟨header, hvalid, rest, hrest⟩ := hheader
    obtain ⟨cursor, hinside, hunread, hending⟩ := ending_of_header config hvalid rest
    obtain ⟨ds, events, hleading, hevents, hstore, hfails⟩ :=
      exists_leading config header hinside {} header.chunkCount
    have hstored := stored_addEvents config header.dataKind hevents
    rw [hunread] at hleading
    rw [← hstore] at hstored
    rw [← hrest]
    exact ⟨_, _, hending, Or.inl ⟨header, rest, ds, hvalid, rfl, hleading, rfl, hstored, hfails⟩,
      hstored.size_tracks⟩
  · have hnone : ∀ header : Header, header.Valid → ¬header.encode <+: pieces.flatten :=
      fun header hvalid hbegins => hheader ⟨header, hvalid, hbegins⟩
    obtain ⟨failure, -, hending⟩ := ending_of_no_header config hnone
    exact ⟨_, _, hending, Or.inr ⟨hnone, rfl, rfl, rfl⟩, rfl⟩

end LogicCapture.Binary
