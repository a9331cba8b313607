import Mathlib
import LogicCapture.Import
import LogicCapture.Proofs.Capture
import LogicCapture.Proofs.Records

/-!
# How an import can fail

What an import cannot decode it reports as a malformed capture. There are two exceptions: a finite
time whose product with a thousand million is not finite, and a line that the codec of an export
refuses. The times that an import comes to are known beforehand (`importTimes`): those of the chunks
or rows in front of the first one that cannot be read. The import overflows exactly if the first of
them that cannot be converted overflows; it is refused exactly if a line is refused and all in front
of it can be read; and every other failure is that of a malformed capture (`importBytes_failure`).
So where no time overflows and no line is refused, no other sort of failure is left: every distance
of samples is defined and every cell of a row is there.
-/

namespace LogicCapture

/-- The failure is that of a capture that cannot be decoded. -/
def Failure.Malformed (failure : Failure) : Prop := failure.kind = .malformedCapture

namespace Time

/-! ## Times that cannot be converted -/

/-- A finite time whose nanoseconds are beyond all doubles. -/
def Overflows (seconds : Float) : Prop :=
  (Binary64.ofFloat seconds).isFinite = true
    ∧ (Binary64.ofFloat (seconds * 1e9)).isFinite = false

theorem ofSeconds_eq_timeOverflow_iff {seconds : Float} :
    ofSeconds seconds = .error .timeOverflow ↔ Overflows seconds := by
  unfold ofSeconds Overflows
  cases hfinite : (Binary64.ofFloat seconds).isFinite with
  | false => simp
  | true =>
      rw [if_pos rfl]
      cases Binary64.ofFloat (seconds * 1e9) with
      | nan => simp [Binary64.isFinite]
      | infinite negative => simp [Binary64.isFinite]
      | finite negative mantissa exponent =>
          dsimp only
          split <;> simp [Binary64.isFinite]

theorem kind_of_ofSeconds_error {seconds : Float} {failure : Failure}
    (h : ofSeconds seconds = .error failure) :
    failure.Malformed ∨ failure = .timeOverflow := by
  unfold ofSeconds at h
  split at h
  · split at h
    · dsimp only at h
      split at h
      · cases h
      · exact .inl (Except.error.inj h ▸ rfl)
    · exact .inr (Except.error.inj h).symm
  · exact .inl (Except.error.inj h ▸ rfl)

/-- The failure of the first time that cannot be converted. -/
def firstFailure : List Float → Option Failure
  | [] => none
  | t :: ts =>
    match ofSeconds t with
    | .ok _ => firstFailure ts
    | .error failure => some failure

theorem firstFailure_append (ts ts' : List Float) :
    firstFailure (ts ++ ts') = (firstFailure ts).or (firstFailure ts') := by
  induction ts with
  | nil => rfl
  | cons t ts ih =>
      rw [List.cons_append, firstFailure, firstFailure]
      split
      · exact ih
      · rfl

theorem firstFailure_eq_some_iff {ts : List Float} {failure : Failure} :
    firstFailure ts = some failure ↔
      ∃ before t after, ts = before ++ t :: after ∧ (∀ x ∈ before, ∃ ns, ofSeconds x = .ok ns)
        ∧ ofSeconds t = .error failure := by
  induction ts with
  | nil =>
      constructor
      · nofun
      · rintro ⟨before, t, after, heq, -⟩
        cases before <;> cases heq
  | cons t ts ih =>
      rw [firstFailure]
      constructor
      · intro h
        split at h
        · next ns ht =>
          obtain ⟨before, x, after, rfl, hbefore, hx⟩ := ih.mp h
          exact ⟨t :: before, x, after, rfl, List.forall_mem_cons.mpr ⟨⟨ns, ht⟩, hbefore⟩, hx⟩
        · next other ht =>
          exact ⟨[], t, ts, rfl, fun x hx => absurd hx List.not_mem_nil,
            ht.trans (congrArg _ (Option.some.inj h))⟩
      · rintro ⟨_ | ⟨y, before⟩, x, after, heq, hbefore, hx⟩
        · obtain ⟨rfl, rfl⟩ := List.cons.inj heq
          rw [hx]
        · obtain ⟨rfl, rfl⟩ := List.cons.inj heq
          obtain ⟨⟨ns, hy⟩, hrest⟩ := List.forall_mem_cons.mp hbefore
          rw [hy]
          exact ih.mpr ⟨before, x, after, rfl, hrest, hx⟩

/-- A failure is accounted for by the times that are come to: it is reported, or it is that of the
first time that cannot be converted, which overflows. -/
structure Accounts (times : List Float) (failure : Option Failure) : Prop where
  kind : ∀ f, failure = some f → f.Malformed ∨ f = .timeOverflow
  overflow : failure = some .timeOverflow ↔ firstFailure times = some .timeOverflow

namespace Accounts

theorem none : Accounts [] none :=
  ⟨nofun, Iff.rfl⟩

theorem malformed {failure : Failure} (h : failure.Malformed) :
    Accounts [] (some failure) := by
  refine ⟨fun f hf => .inl (Option.some.inj hf ▸ h), fun heq => ?_, nofun⟩
  rw [Option.some.inj heq] at h
  cases h

theorem append {ts times : List Float} {failure : Option Failure} (hts : firstFailure ts = .none)
    (h : Accounts times failure) : Accounts (ts ++ times) failure :=
  ⟨h.kind, by rw [firstFailure_append, hts, Option.none_or, h.overflow]⟩

theorem of_firstFailure {ts : List Float} {failure : Failure}
    (hts : firstFailure ts = some failure) (times : List Float) :
    Accounts (ts ++ times) (some failure) := by
  refine ⟨fun f hf => ?_, by rw [firstFailure_append, hts, Option.some_or]⟩
  obtain ⟨-, t, -, -, -, ht⟩ := firstFailure_eq_some_iff.mp hts
  exact Option.some.inj hf ▸ kind_of_ofSeconds_error ht

end Accounts

end Time

namespace Binary

open Failure (Malformed)
open Trace (Store)

/-! ## Failures of captures -/

theorem failsIn_decodeDigitalV0 : FailsIn Chunk.decodeDigitalV0 Malformed := by
  refine FailsIn.bind (.need fun _ => rfl) fun (_, _, _, _, ()) => ?_
  exact FailsIn.bind (.need fun _ => rfl) fun _ => .pure _

theorem failsIn_decodeDigitalV1 : FailsIn Chunk.decodeDigitalV1 Malformed := by
  refine FailsIn.bind (.need fun _ => rfl) fun (_, _, _, _, _, ()) => FailsIn.check rfl ?_
  exact FailsIn.bind (.need fun _ => rfl) fun _ => .pure _

theorem failsIn_decodeAnalogV0 : FailsIn Chunk.decodeAnalogV0 Malformed := by
  refine FailsIn.bind (.need fun _ => rfl) fun (_, _, _, _, ()) =>
    FailsIn.check rfl (FailsIn.check rfl ?_)
  exact FailsIn.bind (.need fun _ => rfl) fun _ => .pure _

theorem failsIn_decodeWaveform : FailsIn Chunk.decodeWaveform Malformed := by
  refine FailsIn.bind (.need fun _ => rfl) fun (_, _, _, _, _, ()) =>
    FailsIn.check rfl (FailsIn.check rfl ?_)
  exact FailsIn.bind (.need fun _ => rfl) fun _ => .pure _

theorem failsIn_decodeWaveforms (n : Nat) : FailsIn (Chunk.decodeWaveforms n) Malformed := by
  induction n with
  | zero => exact .pure _
  | succ n ih => exact failsIn_decodeWaveform.bind fun _ => ih.bind fun _ => .pure _

theorem failsIn_decodeAnalogV1 : FailsIn Chunk.decodeAnalogV1 Malformed :=
  FailsIn.bind (.need fun _ => rfl) fun count =>
    (failsIn_decodeWaveforms count).bind fun _ => .pure _

theorem failsIn_decode (version : Version) (kind : DataKind) :
    FailsIn (Chunk.decode version kind) Malformed := by
  cases version <;> cases kind
  · exact failsIn_decodeDigitalV0
  · exact failsIn_decodeAnalogV0
  · exact failsIn_decodeDigitalV1
  · exact failsIn_decodeAnalogV1

theorem failsIn_decodeDataKind (raw : Int) : FailsIn (decodeDataKind raw) Malformed := by
  unfold decodeDataKind DataKind.ofNumber
  split
  · exact .pure _
  · next failure hraw =>
    have hfailure : failure = .unsupportedDataKind raw := by
      split at hraw
      · cases hraw
      · split at hraw
        · cases hraw
        · exact (Except.error.inj hraw).symm
    subst hfailure
    exact .throw rfl

theorem failsIn_decodeTagged : FailsIn Header.decodeTagged Malformed := by
  refine FailsIn.bind (.need fun _ => rfl) fun (_, _, ()) => ?_
  refine (failsIn_decodeDataKind _).bind fun _ => ?_
  dsimp only
  split
  · refine FailsIn.bind (.need fun _ => rfl) fun _ => FailsIn.check rfl ?_
    exact .pure _
  · split
    · exact .pure _
    · exact .throw rfl

theorem failsIn_decodeLegacy : FailsIn Header.decodeLegacy Malformed := by
  refine FailsIn.bind (.need fun _ => rfl) fun (_, _, _, ()) => FailsIn.check rfl ?_
  exact (failsIn_decodeDataKind _).bind fun _ => .pure _

theorem failsIn_decodeHeader : FailsIn Header.decode Malformed := by
  intro c c' failure h
  unfold Header.decode at h
  split at h
  · exact failsIn_decodeTagged h
  · exact failsIn_decodeLegacy h

/-! ## Times of captures -/

/-- The events of a chunk fail with the first of its times that cannot be converted. -/
theorem mapM_event_eq_error_iff {moments : List Moment} {failure : Failure} :
    moments.mapM Moment.event = .error failure ↔
      Time.firstFailure (moments.map (·.1)) = some failure := by
  induction moments with
  | nil => exact ⟨nofun, nofun⟩
  | cons m moments ih =>
      rw [List.mapM_cons, List.map_cons, Time.firstFailure, Moment.event]
      cases Time.ofSeconds m.1 with
      | error other =>
          constructor
          · intro h
            exact congrArg some (Except.error.inj h)
          · intro h
            exact congrArg Except.error (Option.some.inj h)
      | ok ts =>
          dsimp only
          rw [← ih]
          cases moments.mapM Moment.event with
          | error other => exact Iff.rfl
          | ok events => exact ⟨nofun, nofun⟩

theorem firstFailure_of_mapM_event {moments : List Moment} {events : List (Int × Float)}
    (h : moments.mapM Moment.event = .ok events) :
    Time.firstFailure (moments.map (·.1)) = none := by
  cases hfirst : Time.firstFailure (moments.map (·.1)) with
  | none => rfl
  | some failure =>
      rw [mapM_event_eq_error_iff.mpr hfirst] at h
      cases h

/-- The times of the chunks from here on, up to the first that cannot be decoded. -/
def chunkTimes (header : Header) (cursor : Cursor) : Nat → List Float
  | 0 => []
  | n + 1 =>
    match Chunk.decode header.container.version header.dataKind cursor with
    | .error _ _ => []
    | .ok chunk cursor => chunk.moments.map (·.1) ++ chunkTimes header cursor n

theorem accounts_readChunks (config : Config) (header : Header) {cursor : Cursor}
    (hc : cursor.Inside) (store : Store) (n : Nat) :
    Time.Accounts (chunkTimes header cursor n)
      (Reader.readChunks config header cursor store n).1 := by
  induction n generalizing cursor store with
  | zero => exact .none
  | succ n ih =>
      rw [chunkTimes, Reader.readChunks]
      cases hdecode : Chunk.decode header.container.version header.dataKind cursor with
      | error failure _ => exact .malformed (failsIn_decode _ _ hdecode)
      | ok chunk cursor' =>
          obtain ⟨_, ⟨d, rfl, rfl⟩, hpasses⟩ := (takes_decode _ _ hc).mp hdecode
          dsimp only
          rw [events_eq_mapM d.sound]
          cases hevents : d.chunk.moments.mapM Moment.event with
          | error failure => exact .of_firstFailure (mapM_event_eq_error_iff.mp hevents) _
          | ok events =>
              exact (ih (hpasses.inside hc) _).append (firstFailure_of_mapM_event hevents)

/-- The times of a capture that its reader comes to. -/
def captureTimes (data : List UInt8) : List Float :=
  if data.isEmpty then []
  else
    match Header.decode { data := data.toArray } with
    | .error _ _ => []
    | .ok header cursor => chunkTimes header cursor header.chunkCount

end Binary

namespace Csv

open Failure (Malformed)
open Trace (Store)

/-! ## Times of rows -/

/-- The seconds that a row gives for its start and its duration. -/
def rowSeconds (schema : Schema) (cells : List String) : Except Failure (Float × Float) := do
  let row := schema.pad cells
  let start ← seconds (schema.value row .startTime) Role.startTime.label true
  let duration ← seconds (schema.value row .duration) Role.duration.label false
  return (start, duration)

/-- The times of these rows, up to the first that cannot be read. -/
def rowTimes (schema : Schema) : List (List String) → List Float
  | [] => []
  | cells :: rows =>
    match rowSeconds schema cells with
    | .error _ => []
    | .ok (start, duration) => [start, duration] ++ rowTimes schema rows

/-- The times of an export: those of the rows below its header. -/
def exportTimes (lines : List String) : List Float :=
  match records lines with
  | [] => []
  | header :: rows =>
    match Schema.ofFields header with
    | .error _ => []
    | .ok schema => rowTimes schema rows

theorem malformed_of_seconds {text column : String} {required : Bool} {failure : Failure}
    (h : seconds text column required = .error failure) : failure.Malformed := by
  unfold seconds at h
  split at h
  · split at h
    · exact Except.error.inj h ▸ rfl
    · cases h
  · split at h
    · cases h
    · exact Except.error.inj h ▸ rfl

theorem rowSeconds_eq_ok_iff {schema : Schema} {cells : List String} {start duration : Float} :
    rowSeconds schema cells = .ok (start, duration) ↔
      seconds (schema.value (schema.pad cells) .startTime) Role.startTime.label true = .ok start
        ∧ seconds (schema.value (schema.pad cells) .duration) Role.duration.label false
          = .ok duration := by
  unfold rowSeconds
  dsimp only
  cases seconds (schema.value (schema.pad cells) .startTime) Role.startTime.label true with
  | error other => exact ⟨nofun, fun h => nomatch h.1⟩
  | ok a =>
      cases seconds (schema.value (schema.pad cells) .duration) Role.duration.label false with
      | error other => exact ⟨nofun, fun h => nomatch h.2⟩
      | ok b =>
          constructor
          · intro h
            obtain ⟨rfl, rfl⟩ := Prod.mk.inj (Except.ok.inj h)
            exact ⟨rfl, rfl⟩
          · rintro ⟨ha, hb⟩
            rw [Except.ok.inj ha, Except.ok.inj hb]
            rfl

/-- A row whose cells cannot be read fails with what is wrong with them. -/
theorem ofCells_of_rowSeconds_error (config : Config) {schema : Schema} {cells : List String}
    {failure : Failure} (h : rowSeconds schema cells = .error failure) :
    failure.Malformed ∧ Entry.ofCells config schema cells = .error failure := by
  unfold rowSeconds at h
  unfold Entry.ofCells Event.ofRow
  dsimp only at h ⊢
  cases hstart : seconds (schema.value (schema.pad cells) .startTime) Role.startTime.label true with
  | error other =>
      rw [hstart] at h
      obtain rfl := Except.error.inj h
      exact ⟨malformed_of_seconds hstart, rfl⟩
  | ok start =>
      cases hduration : seconds (schema.value (schema.pad cells) .duration) Role.duration.label
        false with
      | error other =>
          rw [hstart, hduration] at h
          obtain rfl := Except.error.inj h
          exact ⟨malformed_of_seconds hduration, rfl⟩
      | ok duration =>
          rw [hstart, hduration] at h
          cases h

theorem malformed_of_ofFields {columns : List String} {failure : Failure}
    (h : Schema.ofFields columns = .error failure) : failure.Malformed := by
  unfold Schema.ofFields at h
  split at h
  · exact Except.error.inj h ▸ rfl
  · dsimp only at h
    split at h
    · cases h
    · exact Except.error.inj h ▸ rfl

/-- A row whose cells can be read fails with the first of its times that cannot be converted, if
there is one. -/
theorem ofCells_of_rowSeconds (config : Config) {schema : Schema} {cells : List String}
    {start duration : Float} (h : rowSeconds schema cells = .ok (start, duration)) :
    match Time.firstFailure [start, duration] with
    | none => ∃ event args, Entry.ofCells config schema cells = .ok (.row event args)
    | some failure => Entry.ofCells config schema cells = .error failure := by
  obtain ⟨hstart, hduration⟩ := rowSeconds_eq_ok_iff.mp h
  have hargs := args_pad schema cells
  unfold Entry.ofCells Event.ofRow
  dsimp only
  rw [hstart, hduration, hargs]
  dsimp only [bind, Except.bind]
  cases hts : Time.ofSeconds start with
  | error failure =>
      simp only [Time.firstFailure, hts]
  | ok ts =>
      cases hdur : Time.ofSeconds duration with
      | error failure =>
          simp only [Time.firstFailure, hts, hdur]
      | ok dur =>
          simp only [Time.firstFailure, hts, hdur]
          exact ⟨_, _, rfl⟩

theorem rowTimes_intern (schema : Schema) (store : Store) (rows : List (List String)) :
    rowTimes (schema.intern store).1 rows = rowTimes schema rows := by
  induction rows with
  | nil => rfl
  | cons cells rows ih =>
      have hrow : rowSeconds (schema.intern store).1 cells = rowSeconds schema cells := rfl
      rw [rowTimes, rowTimes, hrow, ih]

/-- Below the header, reading fails with what is wrong with a row, or with the first time that
cannot be converted. -/
theorem accounts_rows {s : Session} {schema : Schema} (h : s.schema = some schema)
    (rows : List (List String)) :
    Time.Accounts (rowTimes schema rows) (s.readRecords rows).1 := by
  induction rows generalizing s with
  | nil => exact .none
  | cons cells rows ih =>
      rw [Session.readRecords_row h, rowTimes]
      cases hrow : rowSeconds schema cells with
      | error failure =>
          obtain ⟨hmalformed, hcells⟩ := ofCells_of_rowSeconds_error s.config hrow
          rw [hcells]
          exact .malformed hmalformed
      | ok times =>
          obtain ⟨start, duration⟩ := times
          -- the two times of the row stand in front of those of the rows below
          have hcells := ofCells_of_rowSeconds s.config hrow
          dsimp only
          split at hcells
          · next hnone =>
            obtain ⟨event, args, hrow⟩ := hcells
            rw [hrow]
            exact (ih ((s.frame_onRow event args).2.trans h)).append hnone
          · next failure hsome =>
            rw [hcells]
            exact .of_firstFailure hsome _

/-- Reading an export fails with what is wrong with one of its lines, or with the first time that
cannot be converted. -/
theorem accounts_readAll {s : Session} (h : s.schema = none) (lines : List String) :
    Time.Accounts (exportTimes lines) (s.readAll lines).1 := by
  rw [Session.readAll_eq, exportTimes]
  cases records lines with
  | nil => exact .none
  | cons header rows =>
      rw [Session.readRecords_header h]
      dsimp only
      cases hfields : Schema.ofFields header with
      | error failure => exact .malformed (malformed_of_ofFields hfields)
      | ok schema =>
          -- the header enters the store, which gives its columns handles
          have hknown : (s.setSchema schema).schema = some (schema.intern s.store).1 := rfl
          have hrows := accounts_rows hknown rows
          rw [rowTimes_intern] at hrows
          exact hrows

end Csv

namespace Import

open Failure (Malformed)
open Trace (Store)

/-! ## Failures of imports -/

/-- The lines of these octets, if they are imported as an export. -/
def importLines (config : Config) (source : Option String) (data : List UInt8) :
    List Text.Decoded :=
  match resolve config (data.take headSize) source, Csv.Reader.linesIn config.csv.encoding with
  | .ok .csv, .ok lines => (Text.allLines data).map lines.codec.decode
  | _, _ => []

/-- The times that an import of these octets comes to. -/
def importTimes (config : Config) (source : Option String) (data : List UInt8) : List Float :=
  match resolve config (data.take headSize) source with
  | .ok .binary => Binary.captureTimes data
  | .ok .csv => Csv.exportTimes (Csv.texts (importLines config source data))
  | .error _ => []

theorem accounts_binary (config : Binary.Config) (store : Store) (data : List UInt8) :
    Time.Accounts (Binary.captureTimes data)
      (Result.ofRun Reader.finish (.binary { config, buffer := data.toArray, store })).failure := by
  unfold Binary.captureTimes
  dsimp only [Result.ofRun, Reader.finish, Reader.either, Binary.Reader.finish]
  rw [List.isEmpty_toArray]
  by_cases hempty : data.isEmpty = true
  · rw [if_pos hempty, if_pos hempty]
    exact .malformed rfl
  · rw [if_neg hempty, if_neg hempty]
    cases hdecode : Binary.Header.decode { data := data.toArray } with
    | error failure _ => exact .malformed (Binary.failsIn_decodeHeader hdecode)
    | ok header cursor =>
        have hstart : ({ data := data.toArray } : Cursor).Inside := Nat.zero_le _
        obtain ⟨_, -, hpasses⟩ := (Binary.takes_decodeHeader hstart).mp hdecode
        have hchunks := Binary.accounts_readChunks config header (hpasses.inside hstart) store
          header.chunkCount
        dsimp only
        cases hread : Binary.Reader.readChunks config header cursor store header.chunkCount with
        | mk failure? store' =>
            rw [hread] at hchunks
            cases failure? <;> exact hchunks

/-- The format of an import is one of the two, or there is no telling. -/
theorem malformed_of_resolve {config : Config} {head : List UInt8} {source : Option String}
    {failure : Failure} (h : resolve config head source = .error failure)
    (hrequest : ∃ name ∈ ["auto", "binary", "csv"], config.request = .ofLabel name) :
    failure.Malformed := by
  obtain ⟨name, hname, hrequest⟩ := hrequest
  have hrequest : config.request = .detect ∨ config.request = .format "binary"
      ∨ config.request = .format "csv" := by
    rw [hrequest]
    simp only [List.mem_cons, List.not_mem_nil, or_false] at hname
    rcases hname with rfl | rfl | rfl
    · exact .inl rfl
    · exact .inr (.inl rfl)
    · exact .inr (.inr rfl)
  unfold resolve at h
  rcases hrequest with hrequest | hrequest | hrequest
  · rw [hrequest] at h
    dsimp only at h
    split at h
    · cases h
    · exact Except.error.inj h ▸ rfl
  · rw [hrequest] at h
    cases h
  · rw [hrequest] at h
    cases h

/-- An import fails as what is in front of the first refused line does, and else with the
refusal. -/
theorem accounts_importWhole {config : Config}
    (hrequest : ∃ name ∈ ["auto", "binary", "csv"], config.request = .ofLabel name)
    (hencoding : ∃ lines, Csv.Reader.linesIn config.csv.encoding = .ok lines)
    (source : Option String) (store : Store) (data : List UInt8) :
    let start : Csv.Session := { config := config.csv, bus := { config := {} }, store }
    let lines := importLines config source data
    ∃ failure, Time.Accounts (importTimes config source data) failure
      ∧ (importWhole config source store data).failure = failure.or (Csv.refusal? lines)
      ∧ (Csv.refusal? lines ≠ none → failure = (start.readAll (Csv.texts lines)).1) := by
  obtain ⟨lines, hlines⟩ := hencoding
  intro start decoded
  cases hformat : resolve config (data.take headSize) source with
  | error failure =>
      have hnone : decoded = [] := by simp only [decoded, importLines, hformat]
      rw [importTimes, hformat, importWhole_error (openReader_error hformat store), hnone]
      exact ⟨_, .malformed (malformed_of_resolve hformat hrequest), (Option.or_none ..).symm,
        fun h => absurd rfl h⟩
  | ok format =>
      cases format with
      | binary =>
          have hnone : decoded = [] := by simp only [decoded, importLines, hformat]
          rw [importTimes, hformat, importWhole_binary hformat, hnone]
          exact ⟨_, accounts_binary config.binary store data, (Option.or_none ..).symm,
            fun h => absurd rfl h⟩
      | csv =>
          have hdecoded : (Text.allLines data).map lines.codec.decode = decoded := by
            simp only [decoded, importLines, hformat, hlines]
          rw [importTimes, hformat, importWhole_csv hformat hlines, hdecoded]
          exact ⟨_, Csv.accounts_readAll rfl _, rfl, fun _ => rfl⟩

/-- An import of octets ends in the failure of a capture that cannot be decoded, if it fails at all,
with two exceptions: the first of its times that cannot be converted is a finite one with too many
nanoseconds, or its codec refuses a line and all in front of it can be read. -/
theorem importBytes_failure {config : Config} (hsize : 1 ≤ config.pieceSize)
    (hrequest : ∃ name ∈ ["auto", "binary", "csv"], config.request = .ofLabel name)
    (hencoding : ∃ lines, Csv.Reader.linesIn config.csv.encoding = .ok lines)
    (source : Option String) (store : Store) (data : List UInt8) :
    (∀ failure, (importBytes config source store data).failure = some failure →
        failure.Malformed ∨ failure = .timeOverflow ∨ ∃ reason, failure = .undecodable reason)
      ∧ ((importBytes config source store data).failure = some .timeOverflow ↔
        ∃ before t after, importTimes config source data = before ++ t :: after
          ∧ (∀ x ∈ before, ∃ ns, Time.ofSeconds x = .ok ns) ∧ Time.Overflows t)
      ∧ ∀ reason, (importBytes config source store data).failure = some (.undecodable reason) ↔
        Csv.refusal? (importLines config source data) = some (.undecodable reason)
          ∧ (Csv.Session.readAll { config := config.csv, bus := { config := {} }, store }
              (Csv.texts (importLines config source data))).1 = none := by
  obtain ⟨failure, haccounts, himport, hread⟩ :=
    accounts_importWhole hrequest hencoding source store data
  rw [importBytes_eq_importWhole hsize, himport]
  have hrefusal : ∀ {other}, Csv.refusal? (importLines config source data) = some other →
      ∃ reason, other = .undecodable reason := Csv.exists_of_refusal?
  generalize Csv.refusal? (importLines config source data) = refusal at hread hrefusal ⊢
  refine ⟨?_, ?_, ?_⟩
  · intro other hother
    rcases failure with _ | failure
    · exact .inr (.inr (hrefusal hother))
    · exact (haccounts.kind other hother).imp_right .inl
  · simp only [← Time.ofSeconds_eq_timeOverflow_iff, ← Time.firstFailure_eq_some_iff,
      ← haccounts.overflow]
    rcases failure with _ | failure
    · refine iff_of_false (fun h => ?_) nofun
      obtain ⟨reason, hreason⟩ := hrefusal h
      cases hreason
    · exact Iff.rfl
  · intro reason
    constructor
    · intro h
      rcases failure with _ | failure
      · refine ⟨h, (hread ?_).symm⟩
        rw [show refusal = _ from h]
        exact Option.some_ne_none _
      · rcases haccounts.kind _ h with hmalformed | hoverflow
        · cases hmalformed
        · cases hoverflow
    · rintro ⟨hrefused, hnone⟩
      rw [hread (hrefused ▸ Option.some_ne_none _), hnone, hrefused]
      rfl

def lateExport : List UInt8 :=
  plainOctets "name,type,start_time,duration\nA,x,1e300,0\n"

theorem importBytes_failure_lateExport :
    (1 : Int) ≤ ({ request := .format "csv" } : Config).pieceSize
      ∧ ((importBytes { request := .format "csv" } none {} lateExport).failure
          = some .timeOverflow ↔
        ∃ before t after,
          importTimes { request := .format "csv" } none lateExport = before ++ t :: after
          ∧ (∀ x ∈ before, ∃ ns, Time.ofSeconds x = .ok ns) ∧ Time.Overflows t) := by
  have hsize : (1 : Int) ≤ ({ request := .format "csv" } : Config).pieceSize := by decide
  have hencoding : ∃ lines, Csv.Reader.linesIn
      ({ request := .format "csv" } : Config).csv.encoding = .ok lines := ⟨_, rfl⟩
  exact ⟨hsize, (importBytes_failure hsize ⟨"csv", by simp, rfl⟩ hencoding none {} lateExport).2.1⟩

/-- A late row ends an import in another failure than that of a malformed capture. -/
theorem importBytes_lateExport :
    ∃ failure, (importBytes { request := .format "csv" } none {} lateExport).failure = some failure
      ∧ ¬failure.Malformed := by
  have hkind : (importBytes { request := .format "csv" } none {} lateExport).failure.map
      Failure.kind = some .overflow := by decide +kernel
  obtain ⟨failure, hfailure, hoverflow⟩ := Option.map_eq_some_iff.mp hkind
  refine ⟨failure, hfailure, fun hmalformed => ?_⟩
  rw [Failure.Malformed, hoverflow] at hmalformed
  cases hmalformed

end Import

end LogicCapture
