import Mathlib
import LogicCapture.Proofs.Truncation

/-!
# Declared counts

How many chunks, waveforms, transitions and samples there are is said by the data, and a count may
be far beyond anything that could follow. It never drives decoding further than the octets go: every
step that succeeds moves on (`Advances`), so a loop runs no longer than what is left divided by the
least that one round takes, and a larger count comes to the same (`decodeWaveforms_min`,
`readChunks_min`). What is read and what is stored is bounded by the number of octets alone
(`counts_bounded`).
-/

namespace LogicCapture

/-- From `c` to `c'` the cursor moves on by at least so many octets, and no further than to the
end. -/
structure Cursor.Onward (c : Cursor) (least : Nat) (c' : Cursor) : Prop where
  data_eq : c'.data = c.data
  pos_le : c.pos + least ≤ c'.pos
  inside : c'.Inside

namespace Cursor.Onward

variable {c c' c'' : Cursor} {m n : Nat}

theorem refl (hc : c.Inside) : c.Onward 0 c := ⟨rfl, Nat.le_refl _, hc⟩

theorem trans (h : c.Onward m c') (h' : c'.Onward n c'') : c.Onward (m + n) c'' := by
  refine ⟨h'.data_eq.trans h.data_eq, ?_, h'.inside⟩
  have hfirst := h.pos_le
  have hsecond := h'.pos_le
  omega

theorem mono (h : c.Onward m c') (hle : n ≤ m) : c.Onward n c' :=
  ⟨h.data_eq, (Nat.add_le_add_left hle _).trans h.pos_le, h.inside⟩

theorem of_passes {bytes : List UInt8} (hc : c.Inside) (h : c.Passes bytes c') :
    c.Onward bytes.length c' := by
  refine ⟨?_, ?_, h.inside hc⟩
  · rw [h.eq_advance]
    rfl
  · rw [h.eq_advance]
    exact Nat.le_refl _

theorem of_has {size : Nat} (h : c.has size = true) : c.Onward size (c.advance size) :=
  ⟨rfl, Nat.le_refl _, by simpa [Inside, Cursor.advance] using has_iff.mp h⟩

theorem length_unread_le (h : c.Onward m c') : m + c'.unread.length ≤ c.unread.length := by
  have hpos := h.pos_le
  have hinside := h.inside
  rw [Inside, h.data_eq] at hinside
  rw [length_unread, length_unread, h.data_eq]
  omega

end Cursor.Onward

theorem Cursor.readArray?_within {c c' : Cursor} {field : Field} {count : Int}
    {values : List field.Value} (h : c.readArray? field count = some (values, c')) :
    (values.length : Int) = count ∧ (field.size * values.length : Nat) ≤ c.remaining := by
  unfold readArray? at h
  split at h
  · next hfits =>
    obtain ⟨rfl, rfl⟩ := Prod.mk.inj (Option.some.inj h)
    rw [Bool.and_eq_true, decide_eq_true_eq] at hfits
    obtain ⟨hcount, hfits⟩ := hfits
    obtain ⟨n, rfl⟩ := Int.eq_ofNat_of_zero_le hcount
    rw [← Int.natCast_mul, has_iff] at hfits
    simp only [List.length_map, List.length_range, Int.toNat_natCast, remaining, true_and]
    omega
  · cases h

namespace Binary

open Trace (Store)

/-! ## Steps of decoding -/

/-- Started inside the data, the step moves on by at least so many octets if it succeeds, and does
not move back if it fails. -/
structure Advances {α : Type} (least : Nat) (step : Decode α) : Prop where
  of_ok : ∀ {c a c'}, c.Inside → step c = .ok a c' → c.Onward least c'
  of_error : ∀ {c failure c'}, c.Inside → step c = .error failure c' → c.Onward 0 c'

namespace Advances

variable {α β : Type} {step : Decode α} {next : α → Decode β} {m n : Nat}

theorem mono (h : Advances m step) (hle : n ≤ m) : Advances n step where
  of_ok hc hstep := (h.of_ok hc hstep).mono hle
  of_error := h.of_error

theorem pure (a : α) : Advances 0 (pure a) where
  of_ok hc h := by
    obtain ⟨-, rfl⟩ := EStateM.Result.ok.inj h
    exact .refl hc
  of_error _ h := by cases h

theorem throw (failure : Failure) : Advances n (throw failure : Decode α) where
  of_ok _ h := by cases h
  of_error hc h := by
    obtain ⟨-, rfl⟩ := EStateM.Result.error.inj h
    exact .refl hc

theorem bind (h : Advances m step) (hnext : ∀ a, Advances n (next a)) :
    Advances (m + n) (step >>= next) where
  of_ok hc heq := by
    obtain ⟨a, c', hstep, hrest⟩ := bind_eq_ok.mp heq
    have hfirst := h.of_ok hc hstep
    exact hfirst.trans ((hnext a).of_ok hfirst.inside hrest)
  of_error hc heq := by
    rcases bind_eq_error.mp heq with hstep | ⟨a, c', hstep, hrest⟩
    · exact h.of_error hc hstep
    · have hfirst := h.of_ok hc hstep
      exact (hfirst.trans ((hnext a).of_error hfirst.inside hrest)).mono (Nat.zero_le _)

theorem check {next : Unit → Decode β} {p : Prop} [Decidable p] {failure : Failure}
    (h : Advances n (next ())) :
    Advances n (if p then MonadExcept.throw failure >>= next else next ()) := by
  split
  · have hthrow : Advances 0 (MonadExcept.throw failure : Decode Unit) := throw failure
    exact (hthrow.bind fun _ => h).mono (Nat.zero_add n).ge
  · exact h

theorem need {read : Cursor → Option (α × Cursor)} {failure : Cursor → Failure}
    (h : ∀ {c a c'}, c.Inside → read c = some (a, c') → c.Onward n c') :
    Advances n (need read failure) where
  of_ok hc heq := by
    unfold Binary.need at heq
    split at heq
    · next value c' hread =>
      obtain ⟨-, rfl⟩ := EStateM.Result.ok.inj heq
      exact h hc hread
    · cases heq
  of_error hc heq := by
    unfold Binary.need at heq
    split at heq
    · cases heq
    · obtain ⟨-, rfl⟩ := EStateM.Result.error.inj heq
      exact .refl hc

theorem group (fields : List Field) (failure : Cursor → Failure) :
    Advances (Field.groupSize fields) (Binary.need (·.readGroup? fields) failure) := by
  refine need fun _ hread => ?_
  unfold Cursor.readGroup? at hread
  dsimp only at hread
  split at hread
  · next hfits =>
    obtain ⟨-, rfl⟩ := Prod.mk.inj (Option.some.inj hread)
    exact .of_has hfits
  · cases hread

theorem groupThen {fields : List Field} {failure : Cursor → Failure}
    {next : Field.Values fields → Decode β} (hle : n ≤ Field.groupSize fields)
    (hnext : ∀ values, Advances 0 (next values)) :
    Advances n (Binary.need (·.readGroup? fields) failure >>= next) :=
  ((group fields failure).bind hnext).mono hle

theorem field (field : Field) (failure : Cursor → Failure) :
    Advances field.size (Binary.need (·.read? field) failure) := by
  refine need fun _ hread => ?_
  unfold Cursor.read? at hread
  split at hread
  · next hfits =>
    obtain ⟨-, rfl⟩ := Prod.mk.inj (Option.some.inj hread)
    exact .of_has hfits
  · cases hread

theorem array (field : Field) (count : Int) (failure : Cursor → Failure) :
    Advances 0 (Binary.need (·.readArray? field count) failure) := by
  refine need fun hc hread => ?_
  obtain ⟨ws, -, -, hpasses⟩ := (Cursor.readArray?_eq_some_iff hc).mp hread
  exact (Cursor.Onward.of_passes hc hpasses).mono (Nat.zero_le _)

end Advances

/-! ## Headers and chunks -/

theorem advances_decodeDataKind (raw : Int) : Advances 0 (decodeDataKind raw) := by
  unfold decodeDataKind
  split
  · exact .pure _
  · exact .throw _

theorem advances_decodeTagged : Advances 0 Header.decodeTagged := by
  refine Advances.groupThen (Nat.zero_le _) fun (_, raw, ()) => ?_
  refine Advances.bind (m := 0) (n := 0) (advances_decodeDataKind raw) fun kind => ?_
  dsimp only
  split
  · refine Advances.bind (m := 0) (n := 0) ((Advances.field _ _).mono (Nat.zero_le _)) fun _ => ?_
    exact .check (.pure _)
  · split
    · exact .pure _
    · exact .throw _

theorem advances_decodeLegacy : Advances 0 Header.decodeLegacy := by
  refine Advances.groupThen (Nat.zero_le _) fun (_, _, raw, ()) => .check ?_
  exact (advances_decodeDataKind raw).bind fun kind => .pure _

theorem Header.le_length_encode (header : Header) : 12 ≤ header.encode.length := by
  obtain ⟨container, kind, count⟩ := header
  cases container with
  | legacy => simp [Header.encode, Field.groupSize, Field.size, Width.size]
  | taggedV0 => simp [Header.encode, tag, Field.groupSize, Field.size, Width.size]
  | taggedV1 =>
      have hsize : tag.length + Field.groupSize [.i32, .i32] = 16 := rfl
      simp only [Header.encode, List.length_append, Field.length_encodeGroup]
      omega

theorem advances_decodeHeader : Advances 12 Header.decode where
  of_ok hc h := by
    obtain ⟨_, ⟨-, rfl⟩, hpasses⟩ := (takes_decodeHeader hc).mp h
    exact (Cursor.Onward.of_passes hc hpasses).mono (Header.le_length_encode _)
  of_error hc h := by
    unfold Header.decode at h
    split at h
    · next hstarts =>
      have hskip := Cursor.Onward.of_passes hc
        (.advance ((Cursor.startsWith_iff hc).mp hstarts))
      exact (hskip.trans (advances_decodeTagged.of_error hskip.inside h)).mono (Nat.zero_le _)
    · exact advances_decodeLegacy.of_error hc h

theorem advances_decodeDigitalV0 : Advances 28 Chunk.decodeDigitalV0 := by
  refine Advances.groupThen (by decide) fun (_, _, _, _, ()) => ?_
  exact (Advances.array _ _ _).bind fun _ => .pure _

theorem advances_decodeDigitalV1 : Advances 36 Chunk.decodeDigitalV1 := by
  refine Advances.groupThen (by decide) fun (_, _, _, _, _, ()) => .check ?_
  exact (Advances.array _ _ _).bind fun _ => .pure _

theorem advances_decodeAnalogV0 : Advances 32 Chunk.decodeAnalogV0 := by
  refine Advances.groupThen (by decide) fun (_, _, _, _, ()) => .check (.check ?_)
  exact (Advances.array _ _ _).bind fun _ => .pure _

theorem advances_decodeWaveform : Advances 40 Chunk.decodeWaveform := by
  refine Advances.groupThen (by decide) fun (_, _, _, _, _, ()) => .check (.check ?_)
  exact (Advances.array _ _ _).bind fun _ => .pure _

theorem advances_decodeWaveforms (n : Nat) : Advances (40 * n) (Chunk.decodeWaveforms n) := by
  induction n with
  | zero => exact .pure []
  | succ n ih =>
      refine (advances_decodeWaveform.bind fun w => ih.bind fun ws => .pure _).mono ?_
      omega

theorem advances_decodeAnalogV1 : Advances 8 Chunk.decodeAnalogV1 := by
  refine Advances.bind (m := 8) (n := 0) (.field .u64 _) fun count => ?_
  exact Advances.bind (n := 0) ((advances_decodeWaveforms count).mono (Nat.zero_le _))
    fun _ => .pure _

theorem advances_decode (version : Version) (kind : DataKind) :
    Advances 8 (Chunk.decode version kind) := by
  cases version <;> cases kind
  · exact advances_decodeDigitalV0.mono (by decide)
  · exact advances_decodeAnalogV0.mono (by decide)
  · exact advances_decodeDigitalV1.mono (by decide)
  · exact advances_decodeAnalogV1

/-! ## What is made of the octets of a chunk -/

theorem length_alternating (high : Bool) (ts : List Float) :
    (alternating high ts).length = ts.length := by
  induction ts generalizing high with
  | nil => rfl
  | cons t ts ih => rw [alternating, List.length_cons, ih, List.length_cons]

theorem DigitalChunk.length_moments (chunk : DigitalChunk) :
    chunk.moments.length = chunk.transitions.length + 1 :=
  length_alternating _ _

theorem DigitalChunk.length_moments_le {chunk : DigitalChunk} {head : List UInt8}
    {times : List Field.f64.Word} (htimes : chunk.transitions = times.map Field.f64.read)
    (hhead : 4 ≤ head.length) :
    4 * chunk.moments.length ≤ (head ++ Field.encodeArray .f64 times).length := by
  have hsize : Field.f64.size = 8 := rfl
  rw [length_moments, htimes, List.length_map, List.length_append, Field.length_encodeArray, hsize]
  omega

theorem Waveform.length_moments_le {w : Waveform} {samples : List Field.f32.Word}
    (hsamples : w.samples = samples.map Field.f32.read) (head : List UInt8) :
    4 * w.moments.length ≤ (head ++ Field.encodeArray .f32 samples).length := by
  rw [moments, List.length_mapIdx, hsamples, List.length_map, List.length_append,
    Field.length_encodeArray]
  exact Nat.le_add_left _ _

theorem length_moments_waveforms_le (ds : List WaveformV1) :
    4 * ((ds.map WaveformV1.waveform).flatMap Waveform.moments).length
      ≤ (ds.flatMap WaveformV1.encode).length := by
  induction ds with
  | nil => exact Nat.le_refl _
  | cons d ds ih =>
      have hd : 4 * d.waveform.moments.length ≤ d.encode.length :=
        Waveform.length_moments_le rfl _
      rw [List.map_cons, List.flatMap_cons, List.flatMap_cons, List.length_append,
        List.length_append]
      omega

/-- Every four octets of a chunk make at most one moment. -/
theorem Layout.length_moments_le {version : Version} {kind : DataKind} (d : Layout version kind) :
    4 * d.chunk.moments.length ≤ d.encode.length := by
  cases version <;> cases kind
  · exact DigitalChunk.length_moments_le rfl (Field.length_encodeGroup _ _ ▸ by decide)
  · change 4 * ([AnalogV0.waveform d].flatMap Waveform.moments).length ≤ _
    rw [List.flatMap_singleton]
    exact Waveform.length_moments_le rfl _
  · exact DigitalChunk.length_moments_le rfl (Field.length_encodeGroup _ _ ▸ by decide)
  · refine (length_moments_waveforms_le (AnalogV1.waveforms d)).trans ?_
    change _ ≤ (Field.encode _ _ ++ _).length
    rw [List.length_append]
    exact Nat.le_add_left _ _

theorem size_counters_addEvents (config : Config) (kind : DataKind) (store : Store)
    (events : List (Int × Float)) :
    (Reader.addEvents config kind store events).counters.size
      = store.counters.size + events.length := by
  by_cases h : events = []
  · subst h
    rfl
  · rw [Reader.addEvents_of_ne_nil h]
    simp [Reader.counters]

/-! ## Rows of waveforms -/

/-- The cursor that a step of decoding leaves, however it ends. -/
def left {α : Type} (step : Decode α) (c : Cursor) : Cursor :=
  match step c with
  | .ok _ c' => c'
  | .error _ c' => c'

theorem left_of_ok {α : Type} {step : Decode α} {c c' : Cursor} {a : α} (h : step c = .ok a c') :
    left step c = c' := by
  rw [left, h]

theorem left_of_error {α : Type} {step : Decode α} {c c' : Cursor} {failure : Failure}
    (h : step c = .error failure c') : left step c = c' := by
  rw [left, h]

theorem Advances.onward_left {α : Type} {least : Nat} {step : Decode α} (h : Advances least step)
    {c : Cursor} (hc : c.Inside) : c.Onward 0 (left step c) := by
  cases hstep : step c with
  | ok a c' =>
      rw [left_of_ok hstep]
      exact (h.of_ok hc hstep).mono (Nat.zero_le _)
  | error failure c' =>
      rw [left_of_error hstep]
      exact h.of_error hc hstep

theorem left_map {α β : Type} (step : Decode α) (f : α → β) (c : Cursor) :
    left (step >>= fun a => pure (f a)) c = left step c := by
  cases hstep : step c with
  | ok a c' =>
      rw [left_of_ok hstep]
      exact left_of_ok (bind_eq_ok.mpr ⟨a, c', hstep, rfl⟩)
  | error failure c' =>
      rw [left_of_error hstep]
      exact left_of_error (bind_eq_error.mpr (.inl hstep))

theorem left_bind {α β : Type} {step : Decode α} {next : α → Decode β} {c c' : Cursor} {a : α}
    (h : step c = .ok a c') : left (step >>= next) c = left (next a) c' := by
  cases hnext : next a c' with
  | ok b c'' =>
      rw [left_of_ok hnext]
      exact left_of_ok (bind_eq_ok.mpr ⟨a, c', h, hnext⟩)
  | error failure c'' =>
      rw [left_of_error hnext]
      exact left_of_error (bind_eq_error.mpr (.inr ⟨a, c', h, hnext⟩))

/-- The waveforms that are read where so many are declared, and the cursor behind them. -/
def waveformsRead : Nat → Cursor → List Waveform × Cursor
  | 0, c => ([], c)
  | n + 1, c =>
    match Chunk.decodeWaveform c with
    | .error _ last => ([], last)
    | .ok w c =>
      let (ws, last) := waveformsRead n c
      (w :: ws, last)

theorem left_decodeWaveforms (n : Nat) (c : Cursor) :
    left (Chunk.decodeWaveforms n) c = (waveformsRead n c).2 := by
  induction n generalizing c with
  | zero => rfl
  | succ n ih =>
      rw [waveformsRead]
      cases hstep : Chunk.decodeWaveform c with
      | error failure last => exact left_of_error (bind_eq_error.mpr (.inl hstep))
      | ok w c' =>
          have hrest := (left_map (Chunk.decodeWaveforms n) (w :: ·) c').trans (ih c')
          exact (left_bind hstep).trans hrest

theorem waveformsRead_of_ok {n : Nat} {c c' : Cursor} {ws : List Waveform}
    (h : Chunk.decodeWaveforms n c = .ok ws c') : waveformsRead n c = (ws, c') := by
  induction n generalizing c ws with
  | zero =>
      obtain ⟨rfl, rfl⟩ := EStateM.Result.ok.inj h
      rfl
  | succ n ih =>
      obtain ⟨w, next, hw, hrest⟩ := bind_eq_ok.mp h
      obtain ⟨others, last, hothers, hlast⟩ := bind_eq_ok.mp hrest
      obtain ⟨rfl, rfl⟩ := EStateM.Result.ok.inj hlast
      rw [waveformsRead, hw]
      dsimp only
      rw [ih hothers]

/-- However many waveforms are declared, each that is read takes at least forty octets. -/
theorem onward_waveformsRead (n : Nat) {c : Cursor} (hc : c.Inside) :
    c.Onward (40 * (waveformsRead n c).1.length) (waveformsRead n c).2 := by
  induction n generalizing c with
  | zero => exact .refl hc
  | succ n ih =>
      rw [waveformsRead]
      cases hstep : Chunk.decodeWaveform c with
      | error failure last => exact advances_decodeWaveform.of_error hc hstep
      | ok w c' =>
          have hfirst := advances_decodeWaveform.of_ok hc hstep
          exact (hfirst.trans (ih hfirst.inside)).mono (by simp only [List.length_cons]; omega)

/-- More waveforms than the octets can hold come to the same, however many they are. -/
theorem decodeWaveforms_beyond {n m : Nat} {c : Cursor} (hc : c.Inside)
    (hn : c.unread.length / 40 < n) (hm : c.unread.length / 40 < m) :
    Chunk.decodeWaveforms n c = Chunk.decodeWaveforms m c := by
  induction n generalizing m c with
  | zero => cases hn
  | succ n ih =>
      obtain _ | m := m
      · cases hm
      · change EStateM.bind _ _ c = EStateM.bind _ _ c
        unfold EStateM.bind
        cases hstep : Chunk.decodeWaveform c with
        | error failure last => rfl
        | ok w c' =>
            have hfirst := advances_decodeWaveform.of_ok hc hstep
            have hless := hfirst.length_unread_le
            have hrest := ih (m := m) hfirst.inside (by omega) (by omega)
            change EStateM.bind _ _ c' = EStateM.bind _ _ c'
            unfold EStateM.bind
            rw [hrest]

/-- The loop over waveforms makes no more rounds than the octets have room for, and one that
fails. -/
theorem decodeWaveforms_min (n : Nat) {c : Cursor} (hc : c.Inside) :
    Chunk.decodeWaveforms n c = Chunk.decodeWaveforms (min n (c.unread.length / 40 + 1)) c := by
  rcases Nat.le_total n (c.unread.length / 40 + 1) with h | h
  · rw [Nat.min_eq_left h]
  · rw [Nat.min_eq_right h]
    exact decodeWaveforms_beyond hc h (Nat.lt_succ_self _)

/-! ## Chunks one after the other -/

/-- More chunks than the octets can hold come to the same, however many they are. -/
theorem readChunks_beyond (config : Config) (header : Header) {n m : Nat} {c : Cursor}
    (hc : c.Inside) (store : Store) (hn : c.unread.length / 8 < n)
    (hm : c.unread.length / 8 < m) :
    Reader.readChunks config header c store n = Reader.readChunks config header c store m := by
  induction n generalizing m c store with
  | zero => cases hn
  | succ n ih =>
      obtain _ | m := m
      · cases hm
      · rw [Reader.readChunks, Reader.readChunks]
        cases hstep : Chunk.decode header.container.version header.dataKind c with
        | error failure last => rfl
        | ok chunk c' =>
            have hfirst := (advances_decode _ _).of_ok hc hstep
            have hless := hfirst.length_unread_le
            dsimp only
            cases chunk.events with
            | error failure => rfl
            | ok events => exact ih hfirst.inside _ (by omega) (by omega)

/-- The loop over chunks makes no more rounds than the octets have room for, and one that fails. -/
theorem readChunks_min (config : Config) (header : Header) (n : Nat) {c : Cursor}
    (hc : c.Inside) (store : Store) :
    Reader.readChunks config header c store n
      = Reader.readChunks config header c store (min n (c.unread.length / 8 + 1)) := by
  rcases Nat.le_total n (c.unread.length / 8 + 1) with h | h
  · rw [Nat.min_eq_left h]
  · rw [Nat.min_eq_right h]
    exact readChunks_beyond config header hc store h (Nat.lt_succ_self _)

/-- The least octets of a waveform. -/
def Version.waveformSize : Version → Nat
  | .v0 => 32
  | .v1 => 40

def Chunk.waveforms : Chunk → List Waveform
  | .digital _ => []
  | .analog waveforms => waveforms

/-- The waveforms that are read where a chunk is decoded, also if it fails behind them. -/
def Chunk.waveformsRead (version : Version) (kind : DataKind) (c : Cursor) : List Waveform :=
  match version, kind with
  | .v1, .analog =>
    match c.read? .u64 with
    | some (count, c) => (Binary.waveformsRead count c).1
    | none => []
  | _, _ =>
    match Chunk.decode version kind c with
    | .ok chunk _ => chunk.waveforms
    | .error _ _ => []

theorem length_flatMap_encode_ge (ds : List WaveformV1) :
    40 * ds.length ≤ (ds.flatMap WaveformV1.encode).length := by
  induction ds with
  | nil => exact Nat.le_refl _
  | cons d ds ih =>
      have hd : 40 ≤ d.encode.length := by
        rw [WaveformV1.encode, List.length_append, Field.length_encodeGroup]
        exact Nat.le_add_right _ _
      rw [List.flatMap_cons, List.length_append, List.length_cons]
      omega

theorem Layout.length_waveforms_le {version : Version} {kind : DataKind}
    (d : Layout version kind) :
    version.waveformSize * d.chunk.waveforms.length ≤ d.encode.length := by
  cases version <;> cases kind
  · exact Nat.zero_le _
  · change 32 ≤ (Field.encodeGroup _ (AnalogV0.words d) ++ _).length
    rw [List.length_append, Field.length_encodeGroup]
    exact Nat.le_add_right _ _
  · exact Nat.zero_le _
  · change 40 * ((AnalogV1.waveforms d).map WaveformV1.waveform).length
      ≤ (Field.encode _ _ ++ (AnalogV1.waveforms d).flatMap WaveformV1.encode).length
    rw [List.length_map, List.length_append]
    exact (length_flatMap_encode_ge _).trans (Nat.le_add_left _ _)

theorem Layout.length_waveforms_le_one {version : Version} {kind : DataKind}
    (d : Layout version kind) (hversion : version = .v0) : d.chunk.waveforms.length ≤ 1 := by
  subst hversion
  cases kind
  · exact Nat.zero_le _
  · exact Nat.le_refl _

theorem need_eq_ok {α : Type} {read : Cursor → Option (α × Cursor)} {failure : Cursor → Failure}
    {c c' : Cursor} {a : α} : need read failure c = .ok a c' ↔ read c = some (a, c') := by
  unfold need
  cases read c with
  | none => simp
  | some found => simp [Prod.ext_iff]

theorem Chunk.waveformsRead_of_ok {version : Version} {kind : DataKind} {c c' : Cursor}
    {chunk : Chunk} (h : Chunk.decode version kind c = .ok chunk c') :
    waveformsRead version kind c = chunk.waveforms := by
  cases version <;> cases kind
  · rw [waveformsRead, h]
    nofun
  · rw [waveformsRead, h]
    nofun
  · rw [waveformsRead, h]
    nofun
  · obtain ⟨count, next, hcount, hrest⟩ := bind_eq_ok.mp h
    obtain ⟨ws, last, hws, hlast⟩ := bind_eq_ok.mp hrest
    obtain ⟨rfl, rfl⟩ := EStateM.Result.ok.inj hlast
    simp only [waveformsRead, need_eq_ok.mp hcount, Binary.waveformsRead_of_ok hws, waveforms]

theorem Chunk.waveformsRead_of_error {version : Version} {kind : DataKind} {c c' : Cursor}
    {failure : Failure} (hversion : version = .v0)
    (h : Chunk.decode version kind c = .error failure c') : waveformsRead version kind c = [] := by
  subst hversion
  rw [waveformsRead, h]
  nofun

theorem onward_decodeAnalogV1 {c : Cursor} (hc : c.Inside) :
    c.Onward (40 * (Chunk.waveformsRead .v1 .analog c).length) (left Chunk.decodeAnalogV1 c) := by
  cases hread : c.read? .u64 with
  | none =>
      simp only [Chunk.waveformsRead, hread]
      exact advances_decodeAnalogV1.onward_left hc
  | some found =>
      obtain ⟨count, c'⟩ := found
      have hcount : need (·.read? .u64) (fun _ => .analogV1Truncated) c = .ok count c' :=
        need_eq_ok.mpr hread
      have hfirst := (Advances.field .u64 _).of_ok hc hcount
      have hleft : left Chunk.decodeAnalogV1 c = (waveformsRead count c').2 :=
        (left_bind hcount).trans <|
          (left_map (Chunk.decodeWaveforms count) Chunk.analog c').trans (left_decodeWaveforms _ _)
      simp only [Chunk.waveformsRead, hread, hleft]
      exact (hfirst.trans (onward_waveformsRead count hfirst.inside)).mono (Nat.le_add_left _ _)

/-- Each waveform that is read where a chunk is decoded takes its least, whether decoding succeeds
or fails. -/
theorem onward_decode (version : Version) (kind : DataKind) {c : Cursor} (hc : c.Inside) :
    c.Onward (version.waveformSize * (Chunk.waveformsRead version kind c).length)
      (left (Chunk.decode version kind) c) := by
  cases hstep : Chunk.decode version kind c with
  | ok chunk c' =>
      obtain ⟨_, ⟨d, rfl, rfl⟩, hpasses⟩ := (takes_decode version kind hc).mp hstep
      rw [left_of_ok hstep, Chunk.waveformsRead_of_ok hstep]
      exact (Cursor.Onward.of_passes hc hpasses).mono d.length_waveforms_le
  | error failure last =>
      have hleft := (advances_decode version kind).onward_left hc
      cases version <;> cases kind
      · rwa [Chunk.waveformsRead, hstep]; nofun
      · rwa [Chunk.waveformsRead, hstep]; nofun
      · rwa [Chunk.waveformsRead, hstep]; nofun
      · exact onward_decodeAnalogV1 hc

/-! ## How far decoding comes -/

/-- Where reading chunks has come to: the cursor, the store, and how many chunks and waveforms are
read. -/
structure Progress where
  cursor : Cursor
  store : Store
  chunks : Nat := 0
  waveforms : Nat := 0

namespace Progress

variable {header : Header}

/-- The waveforms that are read up to the end of the next chunk, or where decoding it fails. -/
def waveformsBehind (header : Header) (p : Progress) : Nat :=
  p.waveforms + (Chunk.waveformsRead header.container.version header.dataKind p.cursor).length

/-- One chunk. -/
def round (config : Config) (header : Header) (p : Progress) : Option Failure × Progress :=
  match Chunk.decode header.container.version header.dataKind p.cursor with
  | .error failure cursor =>
    (some failure, { p with cursor, waveforms := p.waveformsBehind header })
  | .ok chunk cursor =>
    match chunk.events with
    | .error failure =>
      (some failure,
        { p with cursor, chunks := p.chunks + 1, waveforms := p.waveformsBehind header })
    | .ok events =>
      (none,
        { cursor
          store := Reader.addEvents config header.dataKind p.store events
          chunks := p.chunks + 1
          waveforms := p.waveformsBehind header })

/-- So many chunks, up to one that fails. -/
def run (config : Config) (header : Header) (p : Progress) : Nat → Option Failure × Progress
  | 0 => (none, p)
  | n + 1 =>
    match p.round config header with
    | (some failure, p) => (some failure, p)
    | (none, p) => run config header p n

theorem readChunks_eq_run (config : Config) (header : Header) (n : Nat) (p : Progress) :
    Reader.readChunks config header p.cursor p.store n
      = ((p.run config header n).1, (p.run config header n).2.store) := by
  induction n generalizing p with
  | zero => rfl
  | succ n ih =>
      rw [Reader.readChunks, run, round]
      cases Chunk.decode header.container.version header.dataKind p.cursor with
      | error failure cursor => rfl
      | ok chunk cursor =>
          dsimp only
          cases chunk.events with
          | error failure => rfl
          | ok events => exact ih ⟨cursor, _, _, _⟩

/-- Behind the header, which ends at `start`, no more is read and stored than the octets that are
passed over allow. -/
structure Within (version : Version) (start : Cursor) (held : Nat) (p : Progress) : Prop where
  chunks : start.Onward (8 * p.chunks) p.cursor
  waveforms : start.Onward (version.waveformSize * p.waveforms) p.cursor
  waveforms_le : version = .v0 → p.waveforms ≤ p.chunks
  counters : 4 * p.store.counters.size + start.pos ≤ 4 * held + p.cursor.pos

theorem Within.refl {start : Cursor} (h : start.Inside) (version : Version) (store : Store) :
    Within version start store.counters.size { cursor := start, store } where
  chunks := .refl h
  waveforms := .refl h
  waveforms_le _ := Nat.le_refl _
  counters := Nat.le_refl _

/-- What one round keeps: where nothing is decoded, there is no chunk more, and each waveform is
paid for; a chunk pays for itself and for its waveforms and moments. -/
theorem Within.round (config : Config) {start : Cursor} {held : Nat} {p : Progress}
    (h : Within header.container.version start held p) :
    Within header.container.version start held (p.round config header).2 := by
  have hc := h.chunks.inside
  have hread := onward_decode header.container.version header.dataKind hc
  have hwaveforms := h.waveforms.trans hread
  rw [← Nat.mul_add] at hwaveforms
  cases hstep : Chunk.decode header.container.version header.dataKind p.cursor with
  | error failure cursor =>
      have hfailed := (advances_decode _ _).of_error hc hstep
      simp only [Progress.round, hstep]
      rw [left_of_error hstep] at hwaveforms
      refine ⟨h.chunks.trans hfailed, hwaveforms, fun hversion => ?_, ?_⟩
      · dsimp only
        rw [waveformsBehind, Chunk.waveformsRead_of_error hversion hstep]
        exact h.waveforms_le hversion
      · exact h.counters.trans (Nat.add_le_add_left hfailed.pos_le _)
  | ok chunk cursor =>
      obtain ⟨_, ⟨d, rfl, rfl⟩, hpasses⟩ := (takes_decode _ _ hc).mp hstep
      have hmoved := Cursor.Onward.of_passes hc hpasses
      have hchunks := h.chunks.trans ((advances_decode _ _).of_ok hc hstep)
      have hcounters := h.counters
      have hpos := hmoved.pos_le
      simp only [Progress.round, hstep]
      rw [left_of_ok hstep] at hwaveforms
      have hless : header.container.version = .v0 →
          p.waveformsBehind header ≤ p.chunks + 1 := fun hversion => by
        rw [waveformsBehind, Chunk.waveformsRead_of_ok hstep]
        exact Nat.add_le_add (h.waveforms_le hversion) (d.length_waveforms_le_one hversion)
      cases hevents : d.chunk.events with
      | error failure =>
          refine ⟨hchunks, hwaveforms, hless, ?_⟩
          dsimp only
          omega
      | ok events =>
          refine ⟨hchunks, hwaveforms, hless, ?_⟩
          rw [events_eq_mapM d.sound] at hevents
          have hlength := (mapM_eq_ok_iff.mp hevents).length_eq
          have hle := d.length_moments_le
          dsimp only
          rw [size_counters_addEvents]
          omega

theorem Within.run (config : Config) {start : Cursor} {held : Nat} (n : Nat) {p : Progress}
    (h : Within header.container.version start held p) :
    Within header.container.version start held (p.run config header n).2 := by
  induction n generalizing p with
  | zero => exact h
  | succ n ih =>
      have hround := h.round config
      rw [Progress.run]
      cases hp : p.round config header with
      | mk failure p' =>
          rw [hp] at hround
          cases failure with
          | none => exact ih hround
          | some failure => exact hround

theorem chunks_round_le (config : Config) (header : Header) (p : Progress) :
    (p.round config header).2.chunks ≤ p.chunks + 1 := by
  unfold round
  cases Chunk.decode header.container.version header.dataKind p.cursor with
  | error failure cursor => exact Nat.le_succ _
  | ok chunk cursor =>
      dsimp only
      split <;> exact Nat.le_refl _

theorem chunks_run_le (config : Config) (header : Header) (p : Progress) (n : Nat) :
    (p.run config header n).2.chunks ≤ p.chunks + n := by
  induction n generalizing p with
  | zero => exact Nat.le_refl _
  | succ n ih =>
      have hround := chunks_round_le config header p
      rw [run]
      cases hp : p.round config header with
      | mk failure p' =>
          rw [hp] at hround
          cases failure with
          | none =>
              have hrest := ih p'
              dsimp only at hround ⊢
              omega
          | some failure => exact hround.trans (by omega)

/-- What is read and what is stored, in proportion to the octets there are. -/
structure Bounded (data : Array UInt8) (held : Nat) (p : Progress) : Prop where
  data_eq : p.cursor.data = data
  inside : p.cursor.Inside
  chunks_le : p.chunks ≤ data.size / 8
  waveforms_le : p.waveforms ≤ data.size / 40
  counters_le : p.store.counters.size ≤ held + data.size / 4

theorem bounded_of_onward {start cursor : Cursor} (h : start.Onward 0 cursor) (store : Store) :
    Bounded start.data store.counters.size { cursor, store } :=
  ⟨h.data_eq, h.inside, Nat.zero_le _, Nat.zero_le _, Nat.le_add_right _ _⟩

/-- A waveform of the older layouts is shorter than forty octets, but there is only one, and the
header in front of it makes up for it. -/
theorem Within.bounded {data : Array UInt8} {version : Version} {start : Cursor} {held : Nat}
    {p : Progress} (h : Within version start held p)
    (hheader : ({ data } : Cursor).Onward 12 start) (hone : version = .v0 → p.chunks ≤ 1) :
    p.Bounded data held := by
  have hinside : p.cursor.pos ≤ p.cursor.data.size := h.chunks.inside
  have hdata : p.cursor.data = data := h.chunks.data_eq.trans hheader.data_eq
  have hpos : 0 + 12 ≤ start.pos := hheader.pos_le
  have hchunks := h.chunks.pos_le
  have hwaveforms := h.waveforms.pos_le
  have hcounters := h.counters
  rw [hdata] at hinside
  refine ⟨hdata, h.chunks.inside, by omega, ?_, by omega⟩
  cases version with
  | v0 =>
      have hless := h.waveforms_le rfl
      have hfew := hone rfl
      rw [Version.waveformSize] at hwaveforms
      omega
  | v1 =>
      rw [Version.waveformSize] at hwaveforms
      omega

end Progress

theorem Header.Valid.chunkCount_eq_one {header : Header} (h : header.Valid)
    (hversion : header.container.version = .v0) : header.chunkCount = 1 := by
  obtain ⟨container, kind, count⟩ := header
  cases container with
  | legacy => exact h
  | taggedV0 => exact h
  | taggedV1 => cases hversion

namespace Reader

/-- How far decoding comes in what a reader has taken in, and how it ends. -/
def progress (reader : Reader) : Option Failure × Progress :=
  if reader.buffer.isEmpty then
    (some .emptyBinary, { cursor := { data := reader.buffer }, store := reader.store })
  else
    match Header.decode { data := reader.buffer } with
    | .error failure cursor => (some failure, { cursor, store := reader.store })
    | .ok header cursor =>
      Progress.run reader.config header { cursor, store := reader.store } header.chunkCount

/-- Decoding comes as far as said, and no further than the octets allow. -/
structure Bounded (reader : Reader) : Prop where
  failure_eq : (ending reader.finish).1 = reader.progress.1
  store_eq : (ending reader.finish).2.store = reader.progress.2.store
  bounded : reader.progress.2.Bounded reader.buffer reader.store.counters.size

theorem ending_finish (reader : Reader) :
    (ending reader.finish).1 = reader.progress.1
      ∧ (ending reader.finish).2.store = reader.progress.2.store := by
  unfold finish progress
  split
  · exact ⟨rfl, rfl⟩
  · cases Header.decode { data := reader.buffer } with
    | error failure cursor => exact ⟨rfl, rfl⟩
    | ok header cursor =>
        have hrun := Progress.readChunks_eq_run reader.config header
          header.chunkCount { cursor, store := reader.store }
        dsimp only at hrun ⊢
        rw [hrun]
        generalize Progress.run reader.config header { cursor, store := reader.store }
          header.chunkCount = outcome
        obtain ⟨_ | failure, p⟩ := outcome <;> exact ⟨rfl, rfl⟩

theorem bounded_progress (reader : Reader) :
    reader.progress.2.Bounded reader.buffer reader.store.counters.size := by
  have hstart : ({ data := reader.buffer } : Cursor).Inside := Nat.zero_le _
  unfold progress
  split
  · exact Progress.bounded_of_onward (.refl hstart) reader.store
  · cases hdecode : Header.decode { data := reader.buffer } with
    | error failure cursor =>
        have hleft := advances_decodeHeader.of_error hstart hdecode
        exact Progress.bounded_of_onward hleft reader.store
    | ok header cursor =>
        have hheader := advances_decodeHeader.of_ok hstart hdecode
        obtain ⟨_, ⟨hvalid, -⟩, -⟩ := (takes_decodeHeader hstart).mp hdecode
        have hwithin := (Progress.Within.refl hheader.inside header.container.version
          reader.store).run reader.config header.chunkCount
        have hcount := Progress.chunks_run_le reader.config header
          { cursor, store := reader.store } header.chunkCount
        refine hwithin.bounded hheader fun hversion => ?_
        rwa [hvalid.chunkCount_eq_one hversion] at hcount ⊢

end Reader

/-- Whatever counts a capture declares, decoding ends inside its octets. Of `n` octets no more than
`n / 8` chunks and `n / 40` waveforms are read and no more than `n / 4` samples stored: each chunk
takes eight octets or more, and each waveform forty, or thirty-two in the layout that has only one.
No array is read that is not there as a whole, and no loop runs longer than what is left allows. -/
theorem counts_bounded (reader : Reader) :
    reader.Bounded
      ∧ (∀ version kind, Advances 8 (Chunk.decode version kind))
      ∧ Advances 40 Chunk.decodeWaveform ∧ Advances 32 Chunk.decodeAnalogV0
      ∧ (∀ (c c' : Cursor) (field : Field) (count : Int) (values : List field.Value),
          c.readArray? field count = some (values, c') →
            (values.length : Int) = count ∧ (field.size * values.length : Nat) ≤ c.remaining)
      ∧ (∀ (n : Nat) (c : Cursor), c.Inside → Chunk.decodeWaveforms n c
          = Chunk.decodeWaveforms (min n (c.unread.length / 40 + 1)) c)
      ∧ ∀ (config : Config) (header : Header) (n : Nat) (c : Cursor) (store : Store), c.Inside →
          Reader.readChunks config header c store n
            = Reader.readChunks config header c store (min n (c.unread.length / 8 + 1)) :=
  ⟨⟨reader.ending_finish.1, reader.ending_finish.2, reader.bounded_progress⟩, advances_decode,
    advances_decodeWaveform, advances_decodeAnalogV0, fun _ _ _ _ _ => Cursor.readArray?_within,
    fun n _ => decodeWaveforms_min n, fun config header n _ store hc =>
      readChunks_min config header n hc store⟩

/-- A waveform with one sample. -/
def ping : WaveformV1 where
  start := 0
  trigger := 0
  rate := 0x3FF0000000000000
  downsample := 1
  samples := [0x3F800000]
  rate_pos := by decide +kernel
  downsample_pos := by decide
  length_lt := by decide

/-- A capture that declares the most chunks there can be, the second of them with the most waveforms
there can be. It ends behind the second waveform. -/
def crowded : Reader where
  buffer := (({ container := .taggedV1, dataKind := .analog, chunkCount := 2 ^ 63 - 1 } :
      Header).encode
    ++ (Field.u64.encode 1 ++ ping.encode)
    ++ (Field.u64.encode (2 ^ 64 - 1) ++ ping.encode)).toArray

/-- The two waveforms that are there are read, and the first chunk, and that is all. -/
theorem counts_bounded_crowded :
    let second : Cursor := { data := crowded.buffer, pos := 84 }
    crowded.Bounded ∧ second.Inside
      ∧ Chunk.decodeWaveforms (2 ^ 64 - 1) second = Chunk.decodeWaveforms 2 second
      ∧ crowded.progress.2.chunks = 1 ∧ crowded.progress.2.waveforms = 2
      ∧ crowded.progress.2.store.counters.size = 1 := by
  intro second
  obtain ⟨hbounded, -, -, -, -, hwaveforms, -⟩ := counts_bounded crowded
  have hinside : second.Inside := (by decide +kernel : 84 ≤ crowded.buffer.size)
  have hleft : min (2 ^ 64 - 1) (second.unread.length / 40 + 1) = 2 := by decide +kernel
  have hread : (crowded.progress.2.chunks, crowded.progress.2.waveforms,
      crowded.progress.2.store.counters.size) = (1, 2, 1) := by decide +kernel
  simp only [Prod.mk.injEq] at hread
  refine ⟨hbounded, hinside, ?_, hread⟩
  rw [hwaveforms (2 ^ 64 - 1) second hinside, hleft]

/-- A chunk in the older layout with no samples in its waveform. -/
def flat : AnalogV0 where
  start := 0
  rate := 1
  downsample := 1
  samples := []
  rate_pos := by decide
  downsample_pos := by decide
  length_lt := by decide

/-- Its waveform takes less than forty octets. -/
theorem decode_flat :
    ∃ (w : Waveform) (last : Cursor),
      Chunk.decode .v0 .analog { data := flat.encode.toArray } = .ok (.analog [w]) last
        ∧ last.pos = 32 ∧ last.pos < 0 + 40 := by
  have hstart : ({ data := flat.encode.toArray } : Cursor).Inside := Nat.zero_le _
  have hpasses : ({ data := flat.encode.toArray } : Cursor).Passes flat.encode _ :=
    .advance (List.prefix_refl _)
  have hdecode := (takes_decodeAnalogV0 hstart).mpr ⟨_, ⟨flat, rfl, rfl⟩, hpasses⟩
  exact ⟨_, _, hdecode, by decide, by decide⟩

end Binary

end LogicCapture
