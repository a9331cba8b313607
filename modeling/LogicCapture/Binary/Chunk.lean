import LogicCapture.Binary.Header
import LogicCapture.Time

/-!
# Chunks of a capture

A digital chunk gives the level of one line at its start and the times at which the level changed.
An analog chunk gives waveforms, each a series of samples at a fixed distance in time. Either turns
into a list of counter events, a time in nanoseconds with a value; if a single time cannot be
converted, the chunk has no events at all.
-/

namespace LogicCapture.Binary

/-! ## Chunks -/

/-- One line: its level at the start, and the times of the changes. -/
structure DigitalChunk where
  initiallyHigh : Bool
  start : Float
  transitions : List Float

namespace DigitalChunk

/-- The level from the start on and from each transition on. -/
def states (chunk : DigitalChunk) : List (Float × Bool) :=
  ((chunk.start :: chunk.transitions).zipIdx).map fun (time, i) =>
    (time, chunk.initiallyHigh != (i % 2 == 1))

end DigitalChunk

/-- A series of samples. Only one in `downsample` of the samples taken at `rate` is kept. -/
structure Waveform where
  start : Float
  rate : Float
  downsample : Int
  samples : List Float := []

def nearestFloat (n : Int) : Except Failure Float :=
  let x := Float.ofInt n
  if x.isFinite then .ok x else .error .integerTooLarge

namespace Waveform

def step (w : Waveform) : Except Failure Float := do
  let kept ← nearestFloat w.downsample
  if w.rate == 0 then .error .zeroRate else .ok (kept / w.rate)

def sampleTime (w : Waveform) (index : Int) : Except Failure Float := do
  let step ← w.step
  let index ← nearestFloat index
  return w.start + index * step

end Waveform

inductive Chunk where
  | digital (chunk : DigitalChunk)
  | analog (waveforms : List Waveform)

namespace Chunk

/-! ## Decoding -/

def decodeDigitalV0 : Decode Chunk := do
  let (level, start, _, count, ()) ←
    need (·.readGroup? [.u32, .f64, .f64, .u64]) fun _ => .digitalV0Truncated
  let transitions ←
    need (·.readArray? .f64 count) fun cursor => .transitionsV0Truncated count cursor.remaining
  return .digital { initiallyHigh := level ≠ 0, start, transitions }

def decodeDigitalV1 : Decode Chunk := do
  let (level, _, start, _, count, ()) ←
    need (·.readGroup? [.i32, .f64, .f64, .f64, .i64]) fun _ => .digitalV1Truncated
  if count < 0 then throw (.transitionCountInvalid count)
  let transitions ←
    need (·.readArray? .f64 count) fun cursor => .transitionsV1Truncated count cursor.remaining
  return .digital { initiallyHigh := level ≠ 0, start, transitions }

/-- An analog chunk in the older layout, which holds one waveform. -/
def decodeAnalogV0 : Decode Chunk := do
  let (start, rate, downsample, count, ()) ←
    need (·.readGroup? [.f64, .u64, .u64, .u64]) fun _ => .analogV0Truncated
  if rate = 0 then throw .sampleRateV0Zero
  if downsample = 0 then throw .downsampleV0Zero
  let samples ←
    need (·.readArray? .f32 count) fun cursor => .samplesV0Truncated count cursor.remaining
  return .analog [{ start, rate := Float.ofNat rate, downsample, samples }]

def decodeWaveform : Decode Waveform := do
  let (start, _, rate, downsample, count, ()) ←
    need (·.readGroup? [.f64, .f64, .f64, .i64, .u64]) fun _ => .waveformTruncated
  if !(0 < rate) then throw (.sampleRateV1Invalid rate)
  if downsample ≤ 0 then throw (.downsampleV1Invalid downsample)
  let samples ←
    need (·.readArray? .f32 count) fun cursor => .samplesV1Truncated count cursor.remaining
  return { start, rate, downsample, samples }

/-- This many waveforms. The count comes from the data; decoding ends at the first waveform that is
not there. -/
def decodeWaveforms : Nat → Decode (List Waveform)
  | 0 => pure []
  | n + 1 => do
    let w ← decodeWaveform
    let ws ← decodeWaveforms n
    return w :: ws

def decodeAnalogV1 : Decode Chunk := do
  let count ← need (·.read? .u64) fun _ => .analogV1Truncated
  return .analog (← decodeWaveforms count)

/-- One chunk in the layout of its version and kind. -/
def decode : Version → DataKind → Decode Chunk
  | .v0, .digital => decodeDigitalV0
  | .v1, .digital => decodeDigitalV1
  | .v0, .analog => decodeAnalogV0
  | .v1, .analog => decodeAnalogV1

/-! ## Events -/

def levelValue (high : Bool) : Float :=
  if high then 1 else 0

def waveformEvents (w : Waveform) : Except Failure (List (Int × Float)) :=
  w.samples.zipIdx.mapM fun (sample, i) => do
    return (← Time.ofSeconds (← w.sampleTime i), sample)

def events : Chunk → Except Failure (List (Int × Float))
  | digital chunk => chunk.states.mapM fun (time, high) => do
    return (← Time.ofSeconds time, levelValue high)
  | analog waveforms => do
    return (← waveforms.mapM waveformEvents).flatten

end Chunk

end LogicCapture.Binary
