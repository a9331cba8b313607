import Mathlib
import LogicCapture.Binary.Reader
import LogicCapture.Proofs.Conversion
import LogicCapture.Proofs.Doubles

/-!
# The events of a chunk

Before its times are converted, a chunk is a list of *moments*, each a time in seconds with a value:
a level that turns at every transition, or samples at a fixed distance. Where rate and downsampling
are as the decoders leave them, the events of a chunk are its moments with the times converted one
by one, and nothing else can go wrong (`events_eq_mapM`). The events of several chunks are stored
like those of one (`addEvents_append`).
-/

namespace LogicCapture

/-- How a step ended, and the state that it leaves. -/
def ending {σ : Type} : EStateM.Result Failure σ Unit → Option Failure × σ
  | .ok () s => (none, s)
  | .error failure s => (some failure, s)

section Steps

variable {σ α β : Type} {step : EStateM Failure σ α} {next : α → EStateM Failure σ β} {s s' : σ}

theorem bind_of_ok {a : α} (h : step s = .ok a s') : (step >>= next) s = next a s' := by
  change EStateM.bind step next s = next a s'
  rw [EStateM.bind, h]

theorem bind_of_error {failure : Failure} (h : step s = .error failure s') :
    (step >>= next) s = .error failure s' := by
  change EStateM.bind step next s = .error failure s'
  rw [EStateM.bind, h]

end Steps

namespace Binary

open Trace (Counter Store TrackKind)

/-! ## Moments -/

/-- A time in seconds and the value from there on. -/
abbrev Moment := Float × Float

def Moment.event (m : Moment) : Except Failure (Int × Float) :=
  (·, m.2) <$> Time.ofSeconds m.1

/-- A level that turns at each of the times but the first: one while it is high, and else zero. -/
def alternating (high : Bool) : List Float → List Moment
  | [] => []
  | t :: ts => (t, if high then 1 else 0) :: alternating (!high) ts

/-- The start and the transitions, with the level from there on. -/
def DigitalChunk.moments (chunk : DigitalChunk) : List Moment :=
  alternating chunk.initiallyHigh (chunk.start :: chunk.transitions)

/-- The samples, at a distance of `downsample / rate` from each other. -/
def Waveform.moments (w : Waveform) : List Moment :=
  w.samples.mapIdx fun i sample =>
    (w.start + Float.ofNat i * (Float.ofInt w.downsample / w.rate), sample)

def Chunk.moments : Chunk → List Moment
  | digital chunk => chunk.moments
  | analog waveforms => waveforms.flatMap Waveform.moments

/-- Rate and downsampling give a distance of samples, and the samples can be counted. -/
structure Waveform.Sound (w : Waveform) : Prop where
  rate : (w.rate == 0) = false
  downsample_pos : 0 < w.downsample
  downsample_lt : w.downsample < 2 ^ 64
  length_lt : w.samples.length < 2 ^ 64

def Chunk.Sound : Chunk → Prop
  | digital _ => True
  | analog waveforms => ∀ w ∈ waveforms, w.Sound

/-! ## The events of a chunk -/

theorem alternating_eq_map (high : Bool) (ts : List Float) :
    alternating high ts = ts.zipIdx.map fun (t, i) =>
      (t, if high != (i % 2 == 1) then 1 else 0) := by
  suffices h : ∀ n, alternating (high != (n % 2 == 1)) ts = (ts.zipIdx n).map fun (t, i) =>
      (t, if high != (i % 2 == 1) then 1 else 0) by simpa using h 0
  induction ts with
  | nil => exact fun n => rfl
  | cons t ts ih =>
      intro n
      have hturn : (!(high != (n % 2 == 1))) = (high != ((n + 1) % 2 == 1)) := by
        rcases Nat.mod_two_eq_zero_or_one n with h | h <;>
          simp [Nat.add_mod, h]
      rw [alternating, hturn, ih (n + 1), List.zipIdx_cons, List.map_cons]

theorem nearestFloat_natCast {n : Nat} (h : n < 2 ^ 64) :
    nearestFloat (n : Int) = .ok (Float.ofNat n) :=
  if_pos (Doubles.isFinite_ofNat h)

/-- The distance of the samples of a sound waveform is the quotient of two doubles. -/
theorem Waveform.Sound.sampleTime_eq {w : Waveform} (hw : w.Sound) {i : Nat}
    (hi : i < w.samples.length) :
    w.sampleTime i = .ok (w.start + Float.ofNat i * (Float.ofInt w.downsample / w.rate)) := by
  have hdown : nearestFloat w.downsample = .ok (Float.ofInt w.downsample) := by
    obtain ⟨n, hn⟩ := Int.eq_ofNat_of_zero_le hw.downsample_pos.le
    have hlt := hw.downsample_lt
    rw [hn] at hlt ⊢
    exact nearestFloat_natCast (by omega)
  have hindex := nearestFloat_natCast (hi.trans hw.length_lt)
  have hstep : w.step = .ok (Float.ofInt w.downsample / w.rate) := by
    unfold Waveform.step
    rw [hdown]
    exact if_neg (by rw [hw.rate]; decide)
  unfold Waveform.sampleTime
  rw [hstep, hindex]
  rfl

theorem waveformEvents_eq_mapM {w : Waveform} (hw : w.Sound) :
    Chunk.waveformEvents w = w.moments.mapM Moment.event := by
  unfold Chunk.waveformEvents Waveform.moments
  rw [List.mapIdx_eq_zipIdx_map, List.mapM_map]
  refine mapM_congr_of_mem fun (sample, i) hmem => ?_
  have hi : i < w.samples.length := (List.getElem?_eq_some_iff.mp
    (List.mem_zipIdx_iff_getElem?.mp hmem)).1
  dsimp only [Function.comp]
  rw [hw.sampleTime_eq hi]
  rfl

/-- The events of a sound chunk are its moments with the times converted. -/
theorem events_eq_mapM {chunk : Chunk} (h : chunk.Sound) :
    chunk.events = chunk.moments.mapM Moment.event := by
  cases chunk with
  | digital chunk =>
      dsimp only [Chunk.events, Chunk.moments]
      rw [DigitalChunk.moments, DigitalChunk.states, alternating_eq_map, List.mapM_map,
        List.mapM_map]
      rfl
  | analog waveforms =>
      have hall : waveforms.mapM Chunk.waveformEvents
          = (waveforms.map Waveform.moments).mapM fun ms => ms.mapM Moment.event := by
        rw [List.mapM_map]
        exact mapM_congr_of_mem fun w hw => waveformEvents_eq_mapM (h w hw)
      dsimp only [Chunk.events, Chunk.moments]
      rw [hall, List.flatMap_def, ← flatten_mapM_mapM]
      rfl

/-! ## Storing events -/

theorem findTrack?_internTrack (s : Store) (kind : TrackKind) (key name : String) :
    (s.internTrack kind key name).2.findTrack? kind key
      = some (s.internTrack kind key name).1 := by
  unfold Store.internTrack
  cases hfound : s.findTrack? kind key with
  | some id => exact hfound
  | none =>
      change (s.tracks.push _).findIdx? _ = some s.tracks.size
      rw [Array.findIdx?_push]
      rw [Store.findTrack?] at hfound
      rw [hfound, Option.none_or, if_pos (by simp)]

theorem internTrack_of_findTrack? {s : Store} {kind : TrackKind} {key : String} {id : Nat}
    (h : s.findTrack? kind key = some id) (name : String) :
    s.internTrack kind key name = (id, s) := by
  rw [Store.internTrack, h]

namespace Reader

def counters (track : Nat) (events : List (Int × Float)) : List Counter :=
  events.map fun (ts, value) => { ts, value, track }

theorem foldl_addCounter (store : Store) (track : Nat) (events : List (Int × Float)) :
    events.foldl (fun store (ts, value) => store.addCounter { ts, value, track }) store
      = { store with counters := store.counters ++ (counters track events).toArray } := by
  induction events generalizing store with
  | nil => simp [counters]
  | cons event events ih =>
      rw [List.foldl_cons, ih]
      simp [counters, Store.addCounter]

theorem addEvents_of_ne_nil {config : Config} {kind : DataKind} {store : Store}
    {events : List (Int × Float)} (h : events ≠ []) :
    addEvents config kind store events =
      let (track, store) := store.internTrack kind.trackKind trackKey (config.trackName kind)
      { store with counters := store.counters ++ (counters track events).toArray } := by
  rw [addEvents, if_neg (by simpa using h)]
  exact foldl_addCounter _ _ _

/-- The events of two chunks are stored like those of one. -/
theorem addEvents_append (config : Config) (kind : DataKind) (store : Store)
    (events events' : List (Int × Float)) :
    addEvents config kind (addEvents config kind store events) events'
      = addEvents config kind store (events ++ events') := by
  by_cases h : events = []
  · subst h
    rfl
  by_cases h' : events' = []
  · subst h'
    rw [List.append_nil]
    rfl
  have hfound :=
    findTrack?_internTrack store kind.trackKind trackKey (config.trackName kind)
  rw [addEvents_of_ne_nil h, addEvents_of_ne_nil h',
    addEvents_of_ne_nil (List.append_ne_nil_of_left_ne_nil h events')]
  generalize store.internTrack kind.trackKind trackKey (config.trackName kind) = interned at hfound
  obtain ⟨track, store⟩ := interned
  -- the track is there already, and the samples of the first events do not hide it
  have hagain : ∀ samples, ({ store with counters := samples } : Store).internTrack kind.trackKind
      trackKey (config.trackName kind) = (track, { store with counters := samples }) := by
    intro samples
    have hstill : ({ store with counters := samples } : Store).findTrack? kind.trackKind trackKey
        = some track := hfound
    exact internTrack_of_findTrack? hstill _
  simp only [hagain, counters, List.map_append, Array.append_assoc, List.append_toArray]

end Reader

end Binary

end LogicCapture
