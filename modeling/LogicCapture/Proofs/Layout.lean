import Mathlib
import LogicCapture.Binary.Chunk
import LogicCapture.Proofs.Decoding

/-!
# The layouts of captures

A capture as it is written: every field as a word of its width, every array behind its count, and
nothing that a decoder refuses. For each layout the decoder takes exactly what is written
(`takes_decode`, `takes_decodeHeader`): no other octets are accepted, and from what is accepted it
makes what the words stand for.
-/

namespace LogicCapture.Binary

/-! ## Digital chunks -/

/-- A digital chunk in the older layout. -/
structure DigitalV0 where
  level : Field.u32.Word
  start : Field.f64.Word
  finish : Field.f64.Word
  transitions : List Field.f64.Word
  length_lt : transitions.length < 2 ^ 64

namespace DigitalV0

/-- What is in front of the transitions. -/
def words (d : DigitalV0) : Field.Words [.u32, .f64, .f64, .u64] :=
  (d.level, d.start, d.finish, BitVec.ofNat _ d.transitions.length, ())

def encode (d : DigitalV0) : List UInt8 :=
  Field.encodeGroup _ d.words ++ Field.encodeArray .f64 d.transitions

def chunk (d : DigitalV0) : Chunk :=
  .digital {
    initiallyHigh := Field.u32.read d.level ≠ 0
    start := Field.f64.read d.start
    transitions := d.transitions.map Field.f64.read }

end DigitalV0

theorem takes_decodeDigitalV0 :
    Takes Chunk.decodeDigitalV0 fun chunk bytes =>
      ∃ d : DigitalV0, chunk = d.chunk ∧ bytes = d.encode := by
  let follow : Field.Words [.u32, .f64, .f64, .u64] → Language Chunk :=
    fun (level, start, _, count, ()) chunk bytes =>
      ∃ ws : List Field.f64.Word, (ws.length : Int) = (Field.u64.read count : Nat)
        ∧ chunk = .digital { initiallyHigh := Field.u32.read level ≠ 0
                             start := Field.f64.read start, transitions := ws.map Field.f64.read }
        ∧ bytes = Field.encodeArray .f64 ws
  refine (Takes.groupThen follow fun (level, start, _, count, ()) => ?_).congr ?_
  · exact Takes.arrayInto _ _ _ _
  · intro chunk bytes
    constructor
    · rintro ⟨⟨level, start, finish, count, _⟩, _, ⟨ws, hcount, rfl, rfl⟩, rfl⟩
      obtain ⟨hlt, rfl⟩ := Field.read_unsigned_eq_iff.mp (Int.ofNat_inj.mp hcount).symm
      exact ⟨⟨level, start, finish, ws, hlt⟩, rfl, rfl⟩
    · rintro ⟨d, rfl, rfl⟩
      refine ⟨d.words, _, ⟨d.transitions, ?_, rfl, rfl⟩, rfl⟩
      exact Int.ofNat_inj.mpr (Field.read_unsigned_eq_iff.mpr ⟨d.length_lt, rfl⟩).symm

/-- A digital chunk in the later layout. -/
structure DigitalV1 where
  level : Field.i32.Word
  rate : Field.f64.Word
  start : Field.f64.Word
  finish : Field.f64.Word
  transitions : List Field.f64.Word
  length_lt : transitions.length < 2 ^ 63

namespace DigitalV1

def words (d : DigitalV1) : Field.Words [.i32, .f64, .f64, .f64, .i64] :=
  (d.level, d.rate, d.start, d.finish, BitVec.ofNat _ d.transitions.length, ())

def encode (d : DigitalV1) : List UInt8 :=
  Field.encodeGroup _ d.words ++ Field.encodeArray .f64 d.transitions

def chunk (d : DigitalV1) : Chunk :=
  .digital {
    initiallyHigh := Field.i32.read d.level ≠ 0
    start := Field.f64.read d.start
    transitions := d.transitions.map Field.f64.read }

end DigitalV1

theorem takes_decodeDigitalV1 :
    Takes Chunk.decodeDigitalV1 fun chunk bytes =>
      ∃ d : DigitalV1, chunk = d.chunk ∧ bytes = d.encode := by
  let follow : Field.Words [.i32, .f64, .f64, .f64, .i64] → Language Chunk :=
    fun (level, _, start, _, count, ()) chunk bytes =>
      ¬Field.i64.read count < 0 ∧ ∃ ws : List Field.f64.Word,
        (ws.length : Int) = Field.i64.read count
        ∧ chunk = .digital { initiallyHigh := Field.i32.read level ≠ 0
                             start := Field.f64.read start, transitions := ws.map Field.f64.read }
        ∧ bytes = Field.encodeArray .f64 ws
  refine (Takes.groupThen follow fun (level, _, start, _, count, ()) => ?_).congr ?_
  · exact (Takes.arrayInto _ _ _ _).check
  · intro chunk bytes
    constructor
    · rintro ⟨⟨level, rate, start, finish, count, _⟩, _, ⟨-, ws, hcount, rfl, rfl⟩, rfl⟩
      obtain ⟨hlt, rfl⟩ := Field.read_signed_eq_iff.mp hcount.symm
      have hlength : ws.length < 2 ^ 63 := by
        change 2 * ws.length < 2 ^ 64 at hlt
        omega
      exact ⟨⟨level, rate, start, finish, ws, hlength⟩, rfl, rfl⟩
    · rintro ⟨d, rfl, rfl⟩
      have hhalf : 2 * d.transitions.length < Width.eight.span := by
        have := d.length_lt
        change 2 * d.transitions.length < 2 ^ 64
        omega
      have hcount := (Field.read_signed_eq_iff.mpr ⟨hhalf, rfl⟩).symm
      have hcount_nonneg := Int.not_lt.mpr (hcount ▸ Int.natCast_nonneg d.transitions.length)
      exact ⟨d.words, _, ⟨hcount_nonneg, d.transitions, hcount, rfl, rfl⟩, rfl⟩

/-! ## Analog chunks -/

/-- An analog chunk in the older layout, which holds one waveform. -/
structure AnalogV0 where
  start : Field.f64.Word
  rate : Field.u64.Word
  downsample : Field.u64.Word
  samples : List Field.f32.Word
  rate_pos : 0 < Field.u64.read rate
  downsample_pos : 0 < Field.u64.read downsample
  length_lt : samples.length < 2 ^ 64

namespace AnalogV0

def words (d : AnalogV0) : Field.Words [.f64, .u64, .u64, .u64] :=
  (d.start, d.rate, d.downsample, BitVec.ofNat _ d.samples.length, ())

def encode (d : AnalogV0) : List UInt8 :=
  Field.encodeGroup _ d.words ++ Field.encodeArray .f32 d.samples

def waveform (d : AnalogV0) : Waveform :=
  { start := Field.f64.read d.start
    rate := Float.ofNat (Field.u64.read d.rate)
    downsample := Field.u64.read d.downsample
    samples := d.samples.map Field.f32.read }

end AnalogV0

theorem takes_decodeAnalogV0 :
    Takes Chunk.decodeAnalogV0 fun chunk bytes =>
      ∃ d : AnalogV0, chunk = .analog [d.waveform] ∧ bytes = d.encode := by
  let follow : Field.Words [.f64, .u64, .u64, .u64] → Language Chunk :=
    fun (start, rate, downsample, count, ()) chunk bytes =>
      ¬Field.u64.read rate = 0 ∧ ¬Field.u64.read downsample = 0 ∧ ∃ ws : List Field.f32.Word,
        (ws.length : Int) = (Field.u64.read count : Nat)
        ∧ chunk = .analog [{ start := Field.f64.read start
                             rate := Float.ofNat (Field.u64.read rate)
                             downsample := Field.u64.read downsample
                             samples := ws.map Field.f32.read }]
        ∧ bytes = Field.encodeArray .f32 ws
  refine (Takes.groupThen follow fun (start, rate, downsample, count, ()) => ?_).congr ?_
  · exact (Takes.arrayInto _ _ _ _).check.check
  · intro chunk bytes
    constructor
    · rintro ⟨⟨start, rate, downsample, count, _⟩, _, ⟨hrate, hdown, ws, hcount, rfl, rfl⟩, rfl⟩
      obtain ⟨hlt, rfl⟩ := Field.read_unsigned_eq_iff.mp (Int.ofNat_inj.mp hcount).symm
      exact ⟨⟨start, rate, downsample, ws, Nat.pos_of_ne_zero hrate, Nat.pos_of_ne_zero hdown,
        hlt⟩, rfl, rfl⟩
    · rintro ⟨d, rfl, rfl⟩
      refine ⟨d.words, _, ⟨d.rate_pos.ne', d.downsample_pos.ne', d.samples, ?_, rfl, rfl⟩, rfl⟩
      exact Int.ofNat_inj.mpr (Field.read_unsigned_eq_iff.mpr ⟨d.length_lt, rfl⟩).symm

/-- A waveform in the later layout. -/
structure WaveformV1 where
  start : Field.f64.Word
  trigger : Field.f64.Word
  rate : Field.f64.Word
  downsample : Field.i64.Word
  samples : List Field.f32.Word
  rate_pos : 0 < Field.f64.read rate
  downsample_pos : 0 < Field.i64.read downsample
  length_lt : samples.length < 2 ^ 64

namespace WaveformV1

def words (d : WaveformV1) : Field.Words [.f64, .f64, .f64, .i64, .u64] :=
  (d.start, d.trigger, d.rate, d.downsample, BitVec.ofNat _ d.samples.length, ())

def encode (d : WaveformV1) : List UInt8 :=
  Field.encodeGroup _ d.words ++ Field.encodeArray .f32 d.samples

def waveform (d : WaveformV1) : Waveform :=
  { start := Field.f64.read d.start
    rate := Field.f64.read d.rate
    downsample := Field.i64.read d.downsample
    samples := d.samples.map Field.f32.read }

end WaveformV1

theorem takes_decodeWaveform :
    Takes Chunk.decodeWaveform fun w bytes =>
      ∃ d : WaveformV1, w = d.waveform ∧ bytes = d.encode := by
  let follow : Field.Words [.f64, .f64, .f64, .i64, .u64] → Language Waveform :=
    fun (start, _, rate, downsample, count, ()) w bytes =>
      ¬(!(0 < Field.f64.read rate : Bool)) = true ∧ ¬Field.i64.read downsample ≤ 0
        ∧ ∃ ws : List Field.f32.Word, (ws.length : Int) = (Field.u64.read count : Nat)
          ∧ w = { start := Field.f64.read start
                  rate := Field.f64.read rate
                  downsample := Field.i64.read downsample
                  samples := ws.map Field.f32.read }
          ∧ bytes = Field.encodeArray .f32 ws
  refine (Takes.groupThen follow fun (start, _, rate, downsample, count, ()) => ?_).congr ?_
  · exact (Takes.arrayInto _ _ _ _).check.check
  · intro w bytes
    constructor
    · rintro ⟨⟨start, trigger, rate, downsample, count, _⟩, _,
        ⟨hrate, hdown, ws, hcount, rfl, rfl⟩, rfl⟩
      obtain ⟨hlt, rfl⟩ := Field.read_unsigned_eq_iff.mp (Int.ofNat_inj.mp hcount).symm
      exact ⟨⟨start, trigger, rate, downsample, ws, by simpa using hrate,
        Int.not_le.mp hdown, hlt⟩, rfl, rfl⟩
    · rintro ⟨d, rfl, rfl⟩
      refine ⟨d.words, _, ⟨by simpa using d.rate_pos, Int.not_le.mpr d.downsample_pos, d.samples,
        ?_, rfl, rfl⟩, rfl⟩
      exact Int.ofNat_inj.mpr (Field.read_unsigned_eq_iff.mpr ⟨d.length_lt, rfl⟩).symm

theorem takes_decodeWaveforms (n : Nat) :
    Takes (Chunk.decodeWaveforms n) fun ws bytes =>
      ∃ ds : List WaveformV1, ds.length = n ∧ ws = ds.map WaveformV1.waveform
        ∧ bytes = ds.flatMap WaveformV1.encode := by
  induction n with
  | zero =>
      refine (Takes.pure []).congr fun ws bytes => ?_
      constructor
      · rintro ⟨rfl, rfl⟩
        exact ⟨[], rfl, rfl, rfl⟩
      · rintro ⟨ds, hlength, rfl, rfl⟩
        obtain rfl := List.eq_nil_of_length_eq_zero hlength
        exact ⟨rfl, rfl⟩
  | succ n ih =>
      refine (takes_decodeWaveform.bind fun d => ih.map (d.waveform :: ·)).congr fun ws bytes => ?_
      constructor
      · rintro ⟨d, _, ⟨_, ⟨ds, rfl, rfl, rfl⟩, rfl⟩, rfl⟩
        exact ⟨d :: ds, rfl, rfl, rfl⟩
      · rintro ⟨_ | ⟨d, ds⟩, hlength, rfl, rfl⟩
        · cases hlength
        · exact ⟨d, _, ⟨_, ⟨ds, Nat.succ.inj hlength, rfl, rfl⟩, rfl⟩, rfl⟩

structure AnalogV1 where
  waveforms : List WaveformV1
  length_lt : waveforms.length < 2 ^ 64

namespace AnalogV1

def encode (d : AnalogV1) : List UInt8 :=
  Field.u64.encode (BitVec.ofNat _ d.waveforms.length) ++ d.waveforms.flatMap WaveformV1.encode

end AnalogV1

theorem takes_decodeAnalogV1 :
    Takes Chunk.decodeAnalogV1 fun chunk bytes =>
      ∃ d : AnalogV1, chunk = .analog (d.waveforms.map WaveformV1.waveform)
        ∧ bytes = d.encode := by
  refine ((Takes.field .u64 _).bind fun count =>
    (takes_decodeWaveforms (Field.u64.read count)).map Chunk.analog).congr fun chunk bytes => ?_
  constructor
  · rintro ⟨count, _, ⟨_, ⟨ds, hcount, rfl, rfl⟩, rfl⟩, rfl⟩
    obtain ⟨hlt, rfl⟩ := Field.read_unsigned_eq_iff.mp hcount.symm
    exact ⟨⟨ds, hlt⟩, rfl, rfl⟩
  · rintro ⟨d, rfl, rfl⟩
    have hcount : Field.u64.read (BitVec.ofNat _ d.waveforms.length) = d.waveforms.length :=
      Field.read_unsigned_eq_iff.mpr ⟨d.length_lt, rfl⟩
    exact ⟨_, _, ⟨_, ⟨d.waveforms, hcount.symm, rfl, rfl⟩, rfl⟩, rfl⟩

/-! ## Chunks of any layout -/

/-- A chunk as it is written. -/
def Layout : Version → DataKind → Type
  | .v0, .digital => DigitalV0
  | .v1, .digital => DigitalV1
  | .v0, .analog => AnalogV0
  | .v1, .analog => AnalogV1

namespace Layout

def encode : {version : Version} → {kind : DataKind} → Layout version kind → List UInt8
  | .v0, .digital, d => DigitalV0.encode d
  | .v1, .digital, d => DigitalV1.encode d
  | .v0, .analog, d => AnalogV0.encode d
  | .v1, .analog, d => AnalogV1.encode d

def chunk : {version : Version} → {kind : DataKind} → Layout version kind → Chunk
  | .v0, .digital, d => DigitalV0.chunk d
  | .v1, .digital, d => DigitalV1.chunk d
  | .v0, .analog, d => .analog [AnalogV0.waveform d]
  | .v1, .analog, d => .analog ((AnalogV1.waveforms d).map WaveformV1.waveform)

end Layout

/-- A chunk is decoded from exactly the octets it is written with. -/
theorem takes_decode (version : Version) (kind : DataKind) :
    Takes (Chunk.decode version kind) fun chunk bytes =>
      ∃ d : Layout version kind, chunk = d.chunk ∧ bytes = d.encode := by
  cases version <;> cases kind
  · exact takes_decodeDigitalV0
  · exact takes_decodeAnalogV0
  · exact takes_decodeDigitalV1
  · exact takes_decodeAnalogV1

/-! ## Headers -/

def DataKind.number : DataKind → Nat
  | .digital => 0
  | .analog => 1

theorem DataKind.ofNumber_eq_ok_iff {raw : Int} {kind : DataKind} :
    DataKind.ofNumber raw = .ok kind ↔ raw = kind.number := by
  unfold DataKind.ofNumber
  cases kind with
  | digital => split <;> [skip; split] <;> simp_all [number]
  | analog => split <;> [skip; split] <;> simp_all [number]

/-- A kind of data takes no octets of its own, but a number that is none ends the decoding. -/
theorem takes_decodeDataKind {β : Type} {next : DataKind → Decode β} {raw : Int}
    {follow : DataKind → Language β} (h : ∀ kind, Takes (next kind) (follow kind)) :
    Takes (decodeDataKind raw >>= next) fun b bytes =>
      ∃ kind : DataKind, raw = kind.number ∧ follow kind b bytes := by
  have hkind : Takes (decodeDataKind raw) fun kind bytes =>
      ∃ known : { kind : DataKind // raw = kind.number }, kind = known.val ∧ bytes = [] := by
    unfold decodeDataKind
    cases hraw : DataKind.ofNumber raw with
    | ok kind =>
        have hnumber := DataKind.ofNumber_eq_ok_iff.mp hraw
        refine (Takes.pure kind).congr fun kind' bytes => ?_
        constructor
        · rintro ⟨rfl, rfl⟩
          exact ⟨⟨_, hnumber⟩, rfl, rfl⟩
        · rintro ⟨⟨known, hknown⟩, rfl, rfl⟩
          rw [← DataKind.ofNumber_eq_ok_iff, hraw] at hknown
          exact ⟨(Except.ok.inj hknown).symm, rfl⟩
    | error failure =>
        refine (Takes.throw failure).congr fun kind bytes => ?_
        constructor
        · exact False.elim
        · rintro ⟨⟨known, hknown⟩, -⟩
          rw [← DataKind.ofNumber_eq_ok_iff, hraw] at hknown
          cases hknown
  refine (hkind.bind fun known => h known.val).congr fun b bytes => ?_
  constructor
  · rintro ⟨⟨kind, hraw⟩, v, hv, rfl⟩
    exact ⟨kind, hraw, hv⟩
  · rintro ⟨kind, hraw, hv⟩
    exact ⟨⟨kind, hraw⟩, bytes, hv, rfl⟩

/-- What a header can say: a chunk in the two older containers, and as many as a signed word can
count in the last one. -/
def Header.Valid (header : Header) : Prop :=
  match header.container with
  | .taggedV1 => header.chunkCount < 2 ^ 63
  | _ => header.chunkCount = 1

/-- The octets of a header. -/
def Header.encode (header : Header) : List UInt8 :=
  let kind : Field.i32.Word := BitVec.ofNat _ header.dataKind.number
  match header.container with
  | .legacy => Field.encodeGroup [.u32, .i32, .i32] (BitVec.ofNat _ legacyFileId, 0, kind, ())
  | .taggedV0 => tag ++ Field.encodeGroup [.i32, .i32] (0, kind, ())
  | .taggedV1 => tag ++ (Field.encodeGroup [.i32, .i32] (1, kind, ())
      ++ Field.i64.encode (BitVec.ofNat _ header.chunkCount))

theorem takes_decodeTagged :
    Takes Header.decodeTagged fun header bytes =>
      header.container.tagged = true ∧ header.Valid ∧ tag ++ bytes = header.encode := by
  let follow : Field.Words [.i32, .i32] → Language Header :=
    fun (version, raw, ()) header bytes =>
      ∃ kind : DataKind, Field.i32.read raw = (kind.number : Int) ∧
        ((Field.i32.read version = (1 : Int) ∧ ∃ count v, (¬Field.i64.read count < 0 ∧
            header = { container := .taggedV1, dataKind := kind
                       chunkCount := (Field.i64.read count).toNat } ∧ v = [])
            ∧ bytes = Field.i64.encode count ++ v)
          ∨ (¬Field.i32.read version = (1 : Int) ∧ ((Field.i32.read version = (0 : Int)
              ∧ header = { container := .taggedV0, dataKind := kind } ∧ bytes = [])
            ∨ (¬Field.i32.read version = (0 : Int) ∧ False))))
  refine (Takes.groupThen follow fun (version, raw, ()) => ?_).congr fun header bytes => ?_
  · refine takes_decodeDataKind fun kind => ?_
    refine Takes.ite ?_ (Takes.ite (Takes.pure _) (Takes.throw _))
    refine (Takes.field .i64 _).bind fun count => Takes.check ?_
    exact Takes.pure _
  · constructor
    · rintro ⟨⟨version, raw, _⟩, _, ⟨kind, hraw, hcases⟩, rfl⟩
      obtain ⟨-, rfl⟩ := Field.read_signed_eq_iff.mp hraw
      rcases hcases with ⟨hone, count, _, ⟨hcount, rfl, rfl⟩, rfl⟩ | ⟨-, ⟨hzero, rfl, rfl⟩ | ⟨-, h⟩⟩
      · obtain ⟨-, rfl⟩ := Field.read_signed_eq_iff.mp hone
        obtain ⟨n, hn⟩ := Int.eq_ofNat_of_zero_le (Int.not_lt.mp hcount)
        obtain ⟨hlt, rfl⟩ := Field.read_signed_eq_iff.mp hn
        rw [hn, Int.toNat_natCast]
        refine ⟨rfl, ?_, ?_⟩
        · change n < 2 ^ 63
          change 2 * n < 2 ^ 64 at hlt
          omega
        · rw [List.append_nil]
          rfl
      · obtain ⟨-, rfl⟩ := Field.read_signed_eq_iff.mp hzero
        refine ⟨rfl, rfl, ?_⟩
        rw [List.append_nil]
        rfl
      · exact h.elim
    · rintro ⟨htagged, hvalid, hbytes⟩
      obtain ⟨container, kind, chunkCount⟩ := header
      have hkind : Field.i32.read (BitVec.ofNat _ kind.number) = (kind.number : Int) := by
        cases kind <;> rfl
      cases container with
      | legacy => cases htagged
      | taggedV0 =>
          obtain rfl : chunkCount = 1 := hvalid
          obtain rfl := List.append_cancel_left hbytes
          refine ⟨⟨0, BitVec.ofNat _ kind.number, ()⟩, [], ⟨kind, hkind, .inr ⟨by decide,
            .inl ⟨rfl, rfl, rfl⟩⟩⟩, (List.append_nil _).symm⟩
      | taggedV1 =>
          have hlt : chunkCount < 2 ^ 63 := hvalid
          have hhalf : 2 * chunkCount < Width.eight.span := by
            change 2 * chunkCount < 2 ^ 64
            omega
          have hcount : Field.i64.read (BitVec.ofNat _ chunkCount) = (chunkCount : Int) :=
            Field.read_signed_eq_iff.mpr ⟨hhalf, rfl⟩
          have hcount_nonneg := Int.not_lt.mpr (hcount ▸ Int.natCast_nonneg chunkCount)
          obtain rfl := List.append_cancel_left hbytes
          refine ⟨⟨1, BitVec.ofNat _ kind.number, ()⟩, Field.i64.encode (BitVec.ofNat _ chunkCount),
            ⟨kind, hkind, .inl ⟨by decide, BitVec.ofNat _ chunkCount, [], ⟨hcount_nonneg, ?_, rfl⟩,
              (List.append_nil _).symm⟩⟩, rfl⟩
          rw [hcount, Int.toNat_natCast]

theorem takes_decodeLegacy :
    Takes Header.decodeLegacy fun header bytes =>
      header.container.tagged = false ∧ header.Valid ∧ bytes = header.encode := by
  let follow : Field.Words [.u32, .i32, .i32] → Language Header :=
    fun (fileId, version, raw, ()) header bytes =>
      ¬(Field.u32.read fileId ≠ legacyFileId ∨ Field.i32.read version ≠ (0 : Int)) ∧
        ∃ kind : DataKind, Field.i32.read raw = (kind.number : Int)
          ∧ header = { container := .legacy, dataKind := kind } ∧ bytes = []
  refine (Takes.groupThen follow fun (fileId, version, raw, ()) => ?_).congr fun header bytes => ?_
  · refine Takes.check ?_
    exact takes_decodeDataKind fun kind => Takes.pure _
  · constructor
    · rintro ⟨⟨fileId, version, raw, _⟩, _, ⟨hknown, kind, hraw, rfl, rfl⟩, rfl⟩
      rw [not_or, not_not, not_not] at hknown
      obtain ⟨-, rfl⟩ := Field.read_unsigned_eq_iff.mp hknown.1
      obtain ⟨-, rfl⟩ := Field.read_signed_eq_iff.mp hknown.2
      obtain ⟨-, rfl⟩ := Field.read_signed_eq_iff.mp hraw
      exact ⟨rfl, rfl, List.append_nil _⟩
    · rintro ⟨htagged, hvalid, rfl⟩
      obtain ⟨container, kind, chunkCount⟩ := header
      have hkind : Field.i32.read (BitVec.ofNat _ kind.number) = (kind.number : Int) := by
        cases kind <;> rfl
      cases container with
      | legacy =>
          obtain rfl : chunkCount = 1 := hvalid
          exact ⟨⟨BitVec.ofNat _ legacyFileId, 0, BitVec.ofNat _ kind.number, ()⟩, [],
            ⟨by decide, kind, hkind, rfl, rfl⟩, (List.append_nil _).symm⟩
      | taggedV0 => cases htagged
      | taggedV1 => cases htagged

theorem Header.encode_of_tagged {header : Header} (h : header.container.tagged = true) :
    ∃ bytes, header.encode = tag ++ bytes := by
  obtain ⟨container, kind, chunkCount⟩ := header
  cases container with
  | legacy => cases h
  | taggedV0 => exact ⟨_, rfl⟩
  | taggedV1 => exact ⟨_, rfl⟩

/-- Without a tag the first octet is zero, which the tag does not start with. -/
theorem Header.not_tag_prefix_of_legacy {header : Header} (h : header.container.tagged = false)
    {bytes : List UInt8} (hencode : header.encode <+: bytes) : ¬tag <+: bytes := by
  obtain ⟨container, kind, chunkCount⟩ := header
  cases container with
  | legacy =>
      intro htag
      have hfirst : bytes.head? = some 0 := by
        obtain ⟨rest, rfl⟩ := hencode
        rfl
      obtain ⟨rest, rfl⟩ := htag
      cases hfirst
  | taggedV0 => cases h
  | taggedV1 => cases h

/-- A header is decoded from exactly the octets it is written with. -/
theorem takes_decodeHeader :
    Takes Header.decode fun header bytes => header.Valid ∧ bytes = header.encode := by
  intro c hc header c'
  unfold Header.decode
  split
  · next hstarts =>
    have htag := (Cursor.startsWith_iff hc).mp hstarts
    have hskip := Cursor.Passes.advance htag
    rw [takes_decodeTagged (hskip.inside hc)]
    constructor
    · rintro ⟨bytes, ⟨-, hvalid, hbytes⟩, hpasses⟩
      exact ⟨tag ++ bytes, ⟨hvalid, hbytes⟩, hskip.trans hpasses⟩
    · rintro ⟨_, ⟨hvalid, rfl⟩, hpasses⟩
      cases htagged : header.container.tagged with
      | false => exact absurd htag (Header.not_tag_prefix_of_legacy htagged hpasses.isPrefix)
      | true =>
          obtain ⟨bytes, hencode⟩ := Header.encode_of_tagged htagged
          rw [hencode] at hpasses
          obtain ⟨_, hfirst, hsecond⟩ := hpasses.split
          rw [hfirst.eq_advance] at hsecond
          exact ⟨bytes, ⟨htagged, hvalid, hencode.symm⟩, hsecond⟩
  · next hstarts =>
    rw [takes_decodeLegacy hc]
    constructor
    · rintro ⟨bytes, ⟨-, hvalid, hbytes⟩, hpasses⟩
      exact ⟨bytes, ⟨hvalid, hbytes⟩, hpasses⟩
    · rintro ⟨_, ⟨hvalid, rfl⟩, hpasses⟩
      cases htagged : header.container.tagged with
      | false => exact ⟨_, ⟨htagged, hvalid, rfl⟩, hpasses⟩
      | true =>
          obtain ⟨bytes, hencode⟩ := Header.encode_of_tagged htagged
          have htag : tag <+: c.unread :=
            (hencode ▸ List.prefix_append tag bytes).trans hpasses.isPrefix
          exact absurd ((Cursor.startsWith_iff hc).mpr htag) hstarts

end LogicCapture.Binary
