import Mathlib
import LogicCapture.Binary.Reader
import LogicCapture.Proofs.Events
import LogicCapture.Proofs.Layout

/-!
# Captures and what reading them stores

A capture is a header with its chunks. The reader accepts exactly the octets of captures whose times
can all be converted, with anything behind them, and stores the converted moments of the capture in
order on one track (`readPieces_iff`). How the octets are cut into pieces makes no difference,
since nothing is decoded before the last piece.
-/

namespace LogicCapture.Binary

open Trace (Counter Store Track)

/-! ## Layouts make sound chunks -/

theorem AnalogV0.sound (d : AnalogV0) : d.waveform.Sound where
  rate := Doubles.ofNat_beq_zero d.rate_pos.ne' d.rate.isLt
  downsample_pos := Int.natCast_pos.mpr d.downsample_pos
  downsample_lt := Int.ofNat_lt.mpr d.downsample.isLt
  length_lt := by
    rw [AnalogV0.waveform, List.length_map]
    exact d.length_lt

theorem WaveformV1.sound (d : WaveformV1) : d.waveform.Sound where
  rate := Doubles.beq_zero_of_pos d.rate_pos
  downsample_pos := d.downsample_pos
  downsample_lt := by
    have hlt : d.downsample.toInt < 2 ^ 63 := d.downsample.toInt_lt
    change d.downsample.toInt < 2 ^ 64
    omega
  length_lt := by
    rw [WaveformV1.waveform, List.length_map]
    exact d.length_lt

theorem Layout.sound {version : Version} {kind : DataKind} (d : Layout version kind) :
    d.chunk.Sound := by
  cases version <;> cases kind
  · trivial
  · exact List.forall_mem_singleton.mpr (AnalogV0.sound d)
  · trivial
  · intro w hw
    obtain ⟨d', -, rfl⟩ := List.mem_map.mp hw
    exact d'.sound

/-! ## Captures -/

/-- A capture as it is written: its chunks are of the layout that its container calls for, and their
number is one that its header can say. -/
structure Capture where
  container : Container
  dataKind : DataKind
  chunks : List (Layout container.version dataKind)
  counted : Header.Valid { container, dataKind, chunkCount := chunks.length }

namespace Capture

def header (c : Capture) : Header :=
  { container := c.container, dataKind := c.dataKind, chunkCount := c.chunks.length }

def encode (c : Capture) : List UInt8 :=
  c.header.encode ++ c.chunks.flatMap Layout.encode

def moments (c : Capture) : List Moment :=
  c.chunks.flatMap fun d => d.chunk.moments

def Convertible (c : Capture) : Prop :=
  ∀ m ∈ c.moments, ∃ ts, Time.ofSeconds m.1 = .ok ts

/-- The store holds the capture and nothing else: one sample for each moment, in order, all on one
track, which is there if there is a sample. -/
structure StoredIn (c : Capture) (config : Config) (store : Store) : Prop where
  counters : List.Forall₂ (fun m counter => Time.ofSeconds m.1 = .ok counter.ts
    ∧ counter.value = m.2 ∧ counter.track = 0) c.moments store.counters.toList
  tracks : store.tracks.toList =
    if c.moments.isEmpty then []
    else [{ kind := c.dataKind.trackKind, key := Reader.trackKey, name := 0 }]
  strings : store.strings.texts.toList =
    if c.moments.isEmpty then [] else [config.trackName c.dataKind]
  slices : store.slices = #[]

end Capture

/-! ## Reading chunks -/

theorem readChunks_eq_none_iff {config : Config} {header : Header} {cursor : Cursor}
    (hc : cursor.Inside) {store store' : Store} {n : Nat} :
    Reader.readChunks config header cursor store n = (none, store') ↔
      ∃ (ds : List (Layout header.container.version header.dataKind)) (events : _),
        ds.length = n ∧ ds.flatMap Layout.encode <+: cursor.unread
          ∧ (ds.flatMap fun d => d.chunk.moments).mapM Moment.event = .ok events
          ∧ store' = Reader.addEvents config header.dataKind store events := by
  induction n generalizing cursor store with
  | zero =>
      constructor
      · intro h
        obtain rfl := (Prod.mk.inj h).2
        exact ⟨[], [], rfl, List.nil_prefix, rfl, rfl⟩
      · rintro ⟨ds, events, hlength, -, hevents, rfl⟩
        obtain rfl := List.eq_nil_of_length_eq_zero hlength
        obtain rfl := Except.ok.inj hevents
        rfl
  | succ n ih =>
      constructor
      · intro h
        rw [Reader.readChunks] at h
        split at h
        · cases h
        · next chunk cursor' hdecode =>
          obtain ⟨_, ⟨d, rfl, rfl⟩, hpasses⟩ := (takes_decode _ _ hc).mp hdecode
          split at h
          · cases h
          · next events hevents =>
            rw [events_eq_mapM d.sound] at hevents
            obtain ⟨ds, events', hlength, hprefix, hevents', rfl⟩ := (ih (hpasses.inside hc)).mp h
            refine ⟨d :: ds, events ++ events', congrArg Nat.succ hlength, ?_, ?_, ?_⟩
            · rw [List.flatMap_cons, hpasses.unread_eq]
              exact (List.prefix_append_right_inj _).mpr hprefix
            · exact mapM_append_eq_ok_iff.mpr ⟨events, events', hevents, hevents', rfl⟩
            · exact Reader.addEvents_append _ _ _ _ _
      · rintro ⟨ds, events, hlength, hprefix, hevents, rfl⟩
        rcases ds with _ | ⟨d, ds⟩
        · cases hlength
        obtain ⟨first, rest, hfirst, hrest, rfl⟩ := mapM_append_eq_ok_iff.mp hevents
        rw [List.flatMap_cons] at hprefix
        obtain ⟨cursor', hd, hds⟩ := (Cursor.Passes.advance hprefix).split
        have hdecode := (takes_decode _ _ hc).mpr ⟨_, ⟨d, rfl, rfl⟩, hd⟩
        rw [Reader.readChunks, hdecode]
        dsimp only
        rw [events_eq_mapM d.sound, hfirst]
        dsimp only
        rw [ih (hd.inside hc)]
        exact ⟨ds, rest, Nat.succ.inj hlength, hds.isPrefix, hrest,
          (Reader.addEvents_append _ _ _ _ _).symm⟩

/-! ## Reading a capture -/

theorem Capture.encode_ne_nil (c : Capture) : c.encode ≠ [] := by
  obtain ⟨container, kind, chunks, counted⟩ := c
  cases container <;> exact List.cons_ne_nil _ _

theorem Capture.exists_of_header {header : Header} (hvalid : header.Valid)
    (ds : List (Layout header.container.version header.dataKind))
    (hlength : ds.length = header.chunkCount) :
    ∃ c : Capture, c.header = header ∧ c.encode = header.encode ++ ds.flatMap Layout.encode
      ∧ c.moments = ds.flatMap fun d => d.chunk.moments := by
  obtain ⟨container, kind, count⟩ := header
  change List (Layout container.version kind) at ds
  change ds.length = count at hlength
  subst hlength
  exact ⟨⟨container, kind, ds, hvalid⟩, rfl, rfl, rfl⟩

/-- Decoding what has been taken in succeeds on the octets of a capture, whatever follows them, and
stores the events of the capture. -/
theorem finish_eq_ok_iff {config : Config} {bytes : List UInt8} {reader : Reader} :
    Reader.finish { config, buffer := bytes.toArray } = .ok () reader ↔
      ∃ (c : Capture) (t : List UInt8) (events : _), bytes = c.encode ++ t
        ∧ c.moments.mapM Moment.event = .ok events
        ∧ reader = { config, buffer := bytes.toArray, header := some c.header
                     store := Reader.addEvents config c.dataKind {} events } := by
  have hstart : ({ data := bytes.toArray } : Cursor).Inside := Nat.zero_le _
  have hunread : ({ data := bytes.toArray } : Cursor).unread = bytes := rfl
  unfold Reader.finish
  constructor
  · intro h
    split at h
    · cases h
    · split at h
      · cases h
      · next header cursor hheader =>
        obtain ⟨_, ⟨hvalid, rfl⟩, hpasses⟩ := (takes_decodeHeader hstart).mp hheader
        split at h
        · next store hchunks =>
          obtain ⟨ds, events, hlength, ⟨t, hprefix⟩, hevents, rfl⟩ :=
            (readChunks_eq_none_iff (hpasses.inside hstart)).mp hchunks
          obtain ⟨-, rfl⟩ := EStateM.Result.ok.inj h
          obtain ⟨c, rfl, hencode, hmoments⟩ := Capture.exists_of_header hvalid ds hlength
          refine ⟨c, t, events, ?_, hmoments ▸ hevents, rfl⟩
          rw [← hunread, hpasses.unread_eq, ← hprefix, hencode, List.append_assoc]
        · cases h
  · rintro ⟨c, t, events, rfl, hevents, rfl⟩
    have hnonempty : ¬(c.encode ++ t).toArray.isEmpty = true := by
      simpa using fun h => absurd h c.encode_ne_nil
    have hheader : c.header.encode <+: ({ data := (c.encode ++ t).toArray } : Cursor).unread := by
      rw [hunread, Capture.encode, List.append_assoc]
      exact List.prefix_append _ _
    have hpasses := Cursor.Passes.advance hheader
    have hvalid : c.header.Valid := c.counted
    have hdecode := (takes_decodeHeader hstart).mpr ⟨_, ⟨hvalid, rfl⟩, hpasses⟩
    have hchunks : c.chunks.flatMap Layout.encode <+: (({ data := (c.encode ++ t).toArray } :
        Cursor).advance c.header.encode.length).unread := by
      rw [Cursor.unread_advance, hunread, Capture.encode, List.append_assoc, List.drop_left]
      exact List.prefix_append _ _
    have hread : Reader.readChunks config c.header _ {} c.chunks.length = (none, _) :=
      (readChunks_eq_none_iff (hpasses.inside hstart)).mpr
        ⟨c.chunks, events, rfl, hchunks, hevents, rfl⟩
    rw [if_neg hnonempty]
    dsimp only
    rw [hdecode]
    dsimp only
    split
    · next store heq =>
      obtain rfl := (Prod.mk.inj (heq.symm.trans hread)).2
      rfl
    · next failure store heq => cases heq.symm.trans hread

theorem forM_push (pieces : List (List UInt8)) (reader : Reader) :
    pieces.forM Reader.push reader
      = .ok () { reader with buffer := reader.buffer ++ pieces.flatten } := by
  induction pieces generalizing reader with
  | nil =>
      change EStateM.Result.ok () reader = .ok () { reader with buffer := reader.buffer ++ [] }
      simp
  | cons piece pieces ih =>
      change pieces.forM Reader.push { reader with buffer := reader.buffer ++ piece } = _
      rw [ih]
      simp [← Array.toList_inj, List.append_assoc]

/-! ## What is stored -/

theorem Moment.event_eq_ok_iff {m : Moment} {e : Int × Float} :
    m.event = .ok e ↔ Time.ofSeconds m.1 = .ok e.1 ∧ e.2 = m.2 := by
  unfold Moment.event
  cases Time.ofSeconds m.1 with
  | error failure => exact ⟨nofun, fun h => nomatch h.1⟩
  | ok ts =>
      constructor
      · intro h
        obtain rfl := Except.ok.inj h
        exact ⟨rfl, rfl⟩
      · rintro ⟨hts, hvalue⟩
        obtain rfl := Except.ok.inj hts
        exact congrArg Except.ok (Prod.ext rfl hvalue.symm)

theorem Moment.convertible_iff {moments : List Moment} :
    (∀ m ∈ moments, ∃ ts, Time.ofSeconds m.1 = .ok ts) ↔
      ∃ events, moments.mapM Moment.event = .ok events := by
  rw [exists_mapM_eq_ok_iff]
  refine forall₂_congr fun m _ => ?_
  constructor
  · rintro ⟨ts, hts⟩
    exact ⟨(ts, m.2), Moment.event_eq_ok_iff.mpr ⟨hts, rfl⟩⟩
  · rintro ⟨e, he⟩
    exact ⟨e.1, (Moment.event_eq_ok_iff.mp he).1⟩

theorem Capture.convertible_iff {c : Capture} :
    c.Convertible ↔ ∃ events, c.moments.mapM Moment.event = .ok events :=
  Moment.convertible_iff

theorem intern_empty (text : String) :
    (Trace.StringPool.empty.intern text).1 = 0
      ∧ (Trace.StringPool.empty.intern text).2.texts = #[text] := by
  have htexts : (Trace.StringPool.empty.intern text).2.texts = #[text] := by
    rw [Trace.StringPool.texts_intern]
    exact if_neg (Array.not_mem_empty text)
  have hhandle := Trace.StringPool.text?_intern .empty text
  rw [Trace.StringPool.text?, htexts] at hhandle
  obtain ⟨hlt, -⟩ := Array.getElem?_eq_some_iff.mp hhandle
  exact ⟨Nat.lt_one_iff.mp hlt, htexts⟩

theorem internTrack_empty (kind : Trace.TrackKind) (key name : String) :
    ({} : Store).internTrack kind key name
      = (0, { strings := (Trace.StringPool.empty.intern name).2
              tracks := #[{ kind, key, name := 0 }] }) := by
  have hnone : ({} : Store).findTrack? kind key = none := Array.findIdx?_empty
  rw [Store.internTrack, hnone]
  exact congrArg (fun handle => ((0, { strings := (Trace.StringPool.empty.intern name).2
                                       tracks := #[{ kind, key, name := handle }] }) : Nat × Store))
    (intern_empty name).1

/-- The store holds these moments and nothing else: one sample for each of them, in order, all on
one track, which is there if there is a sample. -/
structure Stored (config : Config) (kind : DataKind) (moments : List Moment) (store : Store) :
    Prop where
  counters : List.Forall₂ (fun m counter => Time.ofSeconds m.1 = .ok counter.ts
    ∧ counter.value = m.2 ∧ counter.track = 0) moments store.counters.toList
  tracks : store.tracks.toList =
    if moments.isEmpty then []
    else [{ kind := kind.trackKind, key := Reader.trackKey, name := 0 }]
  strings : store.strings.texts.toList =
    if moments.isEmpty then [] else [config.trackName kind]
  slices : store.slices = #[]

/-- What an empty store holds once the events of some moments have been added. -/
theorem stored_addEvents (config : Config) (kind : DataKind) {moments : List Moment}
    {events : List (Int × Float)} (h : moments.mapM Moment.event = .ok events) :
    Stored config kind moments (Reader.addEvents config kind {} events) := by
  have hevents := mapM_eq_ok_iff.mp h
  have hempty : moments.isEmpty = events.isEmpty := by
    cases hevents <;> rfl
  by_cases hnone : events = []
  · subst hnone
    have hmoments := List.forall₂_nil_right_iff.mp hevents
    exact ⟨hmoments ▸ .nil, by rw [hempty]; rfl, by rw [hempty]; rfl, rfl⟩
  · have hsome : moments.isEmpty = false := by rw [hempty]; simpa using hnone
    rw [Reader.addEvents_of_ne_nil hnone, internTrack_empty]
    refine ⟨?_, by rw [hsome]; rfl, ?_, rfl⟩
    · dsimp only [Reader.counters]
      rw [Array.empty_append, List.forall₂_map_right_iff]
      refine hevents.imp fun m e he => ?_
      obtain ⟨hts, hvalue⟩ := Moment.event_eq_ok_iff.mp he
      exact ⟨hts, hvalue, rfl⟩
    · rw [hsome]
      exact congrArg Array.toList (intern_empty _).2

theorem Capture.storedIn_addEvents {c : Capture} {events : List (Int × Float)} (config : Config)
    (h : c.moments.mapM Moment.event = .ok events) :
    c.StoredIn config (Reader.addEvents config c.dataKind {} events) :=
  have hstored := stored_addEvents config c.dataKind h
  ⟨hstored.counters, hstored.tracks, hstored.strings, hstored.slices⟩

/-! ## Reading all of a capture -/

/-- How a reader with nothing stored fares with these pieces and no more. -/
def readPieces (config : Config) (pieces : List (List UInt8)) :
    EStateM.Result Failure Reader Unit :=
  (do pieces.forM Reader.push; Reader.finish : EStateM Failure Reader Unit) { config }

theorem readPieces_eq (config : Config) (pieces : List (List UInt8)) :
    readPieces config pieces = Reader.finish { config, buffer := pieces.flatten.toArray } := by
  have hbuffer : (#[] : Array UInt8) ++ pieces.flatten = pieces.flatten.toArray := by
    simp
  rw [readPieces, bind_of_ok (forM_push pieces { config }), hbuffer]

/-- Reading succeeds on exactly the octets of the captures whose times can be converted, each with
anything behind it. Then the reader has the header of the capture and the store holds its converted
moments. -/
theorem readPieces_iff (config : Config) (pieces : List (List UInt8)) :
    ((∃ reader, readPieces config pieces = .ok () reader) ↔
        ∃ (c : Capture) (t : List UInt8), c.Convertible ∧ pieces.flatten = c.encode ++ t)
      ∧ ∀ (c : Capture) (t : List UInt8), c.Convertible → pieces.flatten = c.encode ++ t →
        ∃ reader, readPieces config pieces = .ok () reader
          ∧ reader.header = some c.header ∧ c.StoredIn config reader.store := by
  have hread : ∀ (c : Capture) (t : List UInt8), c.Convertible → pieces.flatten = c.encode ++ t →
      ∃ reader, readPieces config pieces = .ok () reader
        ∧ reader.header = some c.header ∧ c.StoredIn config reader.store := by
    intro c t hc hflatten
    obtain ⟨events, hevents⟩ := Capture.convertible_iff.mp hc
    have hfinish : Reader.finish { config, buffer := pieces.flatten.toArray } = .ok () _ :=
      finish_eq_ok_iff.mpr ⟨c, t, events, hflatten, hevents, rfl⟩
    rw [← readPieces_eq] at hfinish
    exact ⟨_, hfinish, rfl, Capture.storedIn_addEvents config hevents⟩
  refine ⟨⟨?_, ?_⟩, hread⟩
  · rintro ⟨reader, h⟩
    rw [readPieces_eq, finish_eq_ok_iff] at h
    obtain ⟨c, t, events, hflatten, hevents, -⟩ := h
    exact ⟨c, t, Capture.convertible_iff.mpr ⟨events, hevents⟩, hflatten⟩
  · rintro ⟨c, t, hc, hflatten⟩
    obtain ⟨reader, h, -⟩ := hread c t hc hflatten
    exact ⟨reader, h⟩

/-- A line that is high from the start and falls after a second. -/
def pulse : Capture where
  container := .legacy
  dataKind := .digital
  chunks := [({ level := 2, start := 0, finish := 0x4000000000000000
                transitions := [0x3FF0000000000000], length_lt := by decide } : DigitalV0)]
  counted := rfl

theorem Capture.StoredIn.counters_eq {c : Capture} {config : Config} {store : Store}
    (h : c.StoredIn config store) {events : List (Int × Float)}
    (hevents : c.moments.mapM Moment.event = .ok events) :
    store.counters.toList = Reader.counters 0 events := by
  have hcounters := h.counters
  rw [mapM_eq_ok_iff] at hevents
  generalize c.moments = moments at hcounters hevents
  generalize store.counters.toList = counters at hcounters ⊢
  induction hevents generalizing counters with
  | nil => exact List.forall₂_nil_left_iff.mp hcounters
  | @cons m event moments events hevent _ ih =>
      cases hcounters with
      | @cons _ counter _ rest hcounter hrest =>
          obtain ⟨ts, value, track⟩ := counter
          obtain ⟨hts, rfl, rfl⟩ := hcounter
          obtain ⟨hts', hvalue⟩ := Moment.event_eq_ok_iff.mp hevent
          obtain rfl := Except.ok.inj (hts.symm.trans hts')
          rw [ih rest hrest, ← hvalue]
          rfl

/-- The pulse is read from two pieces with an octet behind it, as a one and a zero a second
later. -/
theorem readPieces_pulse :
    ∃ reader, readPieces {} [pulse.encode.take 7, pulse.encode.drop 7 ++ [0xFF]] = .ok () reader
      ∧ reader.header = some { container := .legacy, dataKind := .digital, chunkCount := 1 }
      ∧ reader.store.counters.toList
        = [{ ts := 0, value := 1, track := 0 }, { ts := 1000000000, value := 0, track := 0 }] := by
  have hevents : pulse.moments.mapM Moment.event = .ok [(0, 1), (1000000000, 0)] := rfl
  have hflatten : [pulse.encode.take 7, pulse.encode.drop 7 ++ [0xFF]].flatten
      = pulse.encode ++ [0xFF] := by
    rw [List.flatten_cons, List.flatten_cons, List.flatten_nil, List.append_nil,
      ← List.append_assoc, List.take_append_drop]
  obtain ⟨reader, hread, hheader, hstored⟩ :=
    (readPieces_iff {} _).2 pulse [0xFF] (Capture.convertible_iff.mpr ⟨_, hevents⟩) hflatten
  exact ⟨reader, hread, hheader, hstored.counters_eq hevents⟩

end LogicCapture.Binary
