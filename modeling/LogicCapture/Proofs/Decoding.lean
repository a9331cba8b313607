import Mathlib
import LogicCapture.Binary.Header
import LogicCapture.Proofs.Packing

/-!
# What a step of decoding takes

A step of decoding that succeeds has passed over some octets and made something of them. The pairs
of a result and the octets it is made of are the *language* of the step, and `Takes` says that the
step knows its language exactly: started inside the data it gives a result and moves past some
octets just when the language has them. Languages compose like steps (`Takes.bind`), so the
language of a whole layout is put together from those of its reads.

`FailsIn` is the other half: every failure of a step is of one class, wherever the step starts.
-/

namespace LogicCapture

namespace Cursor

/-! ## Passing over octets -/

/-- The cursor does not lie beyond the end. -/
def Inside (c : Cursor) : Prop := c.pos ≤ c.data.size

@[simp] theorem length_unread (c : Cursor) : c.unread.length = c.data.size - c.pos := by
  simp [unread]

theorem Inside.has_iff {c : Cursor} (h : c.Inside) {size : Nat} :
    c.has size = true ↔ size ≤ c.unread.length := by
  rw [Inside] at h
  rw [Cursor.has_iff, length_unread]
  omega

/-- From `c` to `c'` the cursor passes over exactly these octets. -/
structure Passes (c : Cursor) (bytes : List UInt8) (c' : Cursor) : Prop where
  unread_eq : c.unread = bytes ++ c'.unread
  eq_advance : c' = c.advance bytes.length

namespace Passes

variable {c c' c'' : Cursor} {u v : List UInt8}

theorem nil (c : Cursor) : c.Passes [] c := ⟨rfl, rfl⟩

theorem advance (h : u <+: c.unread) : c.Passes u (c.advance u.length) := by
  obtain ⟨rest, hrest⟩ := h
  refine ⟨?_, rfl⟩
  rw [unread_advance, ← hrest, List.drop_left]

theorem isPrefix (h : c.Passes u c') : u <+: c.unread := ⟨_, h.unread_eq.symm⟩

theorem inside (h : c.Passes u c') (hc : c.Inside) : c'.Inside := by
  have hlength := congrArg List.length h.unread_eq
  have heq := h.eq_advance
  subst heq
  rw [List.length_append, length_unread] at hlength
  simp only [Inside, Cursor.advance] at hc ⊢
  omega

theorem trans (h : c.Passes u c') (h' : c'.Passes v c'') : c.Passes (u ++ v) c'' := by
  refine ⟨by rw [h.unread_eq, h'.unread_eq, List.append_assoc], ?_⟩
  rw [h'.eq_advance, h.eq_advance]
  simp [Cursor.advance, Nat.add_assoc]

theorem split (h : c.Passes (u ++ v) c'') : ∃ c', c.Passes u c' ∧ c'.Passes v c'' := by
  have hu : c.Passes u (c.advance u.length) :=
    advance ((List.prefix_append u v).trans h.isPrefix)
  refine ⟨_, hu, ?_, ?_⟩
  · have hboth := h.unread_eq
    rw [hu.unread_eq, List.append_assoc] at hboth
    exact List.append_cancel_left hboth
  · rw [h.eq_advance]
    simp [Cursor.advance, Nat.add_assoc]

end Passes

/-! ## Reads -/

/-- A read looks whether its octets are there, takes them and moves on behind them. -/
theorem Inside.read_iff {c c' : Cursor} (hc : c.Inside) {size : Nat} {u : List UInt8} :
    c.has size = true ∧ c.slice 0 size = u ∧ c' = c.advance size ↔
      u.length = size ∧ c.Passes u c' := by
  rw [slice_eq, List.drop_zero]
  constructor
  · rintro ⟨hfits, rfl, rfl⟩
    have hlength : (c.unread.take size).length = size :=
      List.length_take_of_le (hc.has_iff.mp hfits)
    have hpasses := Passes.advance (List.take_prefix size c.unread)
    rw [hlength] at hpasses
    exact ⟨hlength, hpasses⟩
  · rintro ⟨rfl, hpasses⟩
    exact ⟨hc.has_iff.mpr hpasses.isPrefix.length_le, by rw [hpasses.unread_eq, List.take_left],
      hpasses.eq_advance⟩

theorem startsWith_iff {c : Cursor} (hc : c.Inside) {bytes : List UInt8} :
    c.startsWith bytes = true ↔ bytes <+: c.unread := by
  rw [startsWith, Bool.and_eq_true, hc.has_iff, beq_iff_eq, slice_eq, List.drop_zero,
    List.prefix_iff_eq_take, eq_comm (a := bytes)]
  constructor
  · exact And.right
  · intro h
    have hlength := congrArg List.length h
    rw [List.length_take] at hlength
    exact ⟨by omega, h⟩

theorem readGroup?_eq_some_iff {c c' : Cursor} (hc : c.Inside) {fields : List Field}
    {values : Field.Values fields} :
    c.readGroup? fields = some (values, c') ↔
      ∃ ws, values = Field.readGroup fields ws ∧ c.Passes (Field.encodeGroup fields ws) c' := by
  unfold readGroup?
  constructor
  · intro h
    dsimp only at h
    split at h
    · next hfits =>
      obtain ⟨rfl, rfl⟩ := Prod.mk.inj (Option.some.inj h)
      obtain ⟨hlength, hpasses⟩ := hc.read_iff.mp ⟨hfits, rfl, rfl⟩
      obtain ⟨ws, hws⟩ := Field.exists_encodeGroup fields hlength
      rw [← hws] at hpasses ⊢
      exact ⟨ws, Field.decodeGroup_encodeGroup fields ws, hpasses⟩
    · cases h
  · rintro ⟨ws, rfl, hpasses⟩
    obtain ⟨hfits, hslice, rfl⟩ := hc.read_iff.mpr ⟨Field.length_encodeGroup fields ws, hpasses⟩
    rw [if_pos hfits, hslice, Field.decodeGroup_encodeGroup]

theorem read?_eq_some_iff {c c' : Cursor} (hc : c.Inside) {field : Field} {value : field.Value} :
    c.read? field = some (value, c') ↔
      ∃ w, value = field.read w ∧ c.Passes (field.encode w) c' := by
  unfold read?
  constructor
  · intro h
    split at h
    · next hfits =>
      obtain ⟨rfl, rfl⟩ := Prod.mk.inj (Option.some.inj h)
      obtain ⟨hlength, hpasses⟩ := hc.read_iff.mp ⟨hfits, rfl, rfl⟩
      obtain ⟨w, hw⟩ := field.exists_encode hlength
      rw [← hw] at hpasses ⊢
      exact ⟨w, field.decode_encode w, hpasses⟩
    · cases h
  · rintro ⟨w, rfl, hpasses⟩
    obtain ⟨hfits, hslice, rfl⟩ := hc.read_iff.mpr ⟨field.length_encode w, hpasses⟩
    rw [if_pos hfits, hslice, Field.decode_encode]

theorem map_slice_of_passes {c c' : Cursor} {field : Field} {ws : List field.Word}
    (h : c.Passes (Field.encodeArray field ws) c') :
    ((List.range ws.length).map fun i => field.decode (c.slice (i * field.size) field.size))
      = ws.map field.read := by
  apply List.ext_getElem
  · simp
  · intro i hi hi'
    have hlt : i < ws.length := by simpa using hi'
    rw [List.getElem_map, List.getElem_range, List.getElem_map, slice_eq, h.unread_eq,
      Field.take_drop_encodeArray field ws _ hlt, Field.decode_encode]

theorem readArray?_eq_some_iff {c c' : Cursor} (hc : c.Inside) {field : Field} {count : Int}
    {values : List field.Value} :
    c.readArray? field count = some (values, c') ↔
      ∃ ws, (ws.length : Int) = count ∧ values = ws.map field.read
        ∧ c.Passes (Field.encodeArray field ws) c' := by
  unfold readArray?
  constructor
  · intro h
    split at h
    · next hfits =>
      obtain ⟨rfl, rfl⟩ := Prod.mk.inj (Option.some.inj h)
      rw [Bool.and_eq_true, decide_eq_true_eq] at hfits
      obtain ⟨hcount, hfits⟩ := hfits
      obtain ⟨n, rfl⟩ := Int.eq_ofNat_of_zero_le hcount
      rw [← Int.natCast_mul] at hfits
      obtain ⟨hlength, hpasses⟩ := hc.read_iff.mp ⟨hfits, rfl, rfl⟩
      obtain ⟨ws, rfl, hws⟩ := Field.exists_encodeArray field n hlength
      rw [← hws] at hpasses
      exact ⟨ws, rfl, map_slice_of_passes hpasses, hpasses⟩
    · cases h
  · rintro ⟨ws, rfl, rfl, hpasses⟩
    obtain ⟨hfits, -, hmoved⟩ := hc.read_iff.mpr ⟨Field.length_encodeArray field ws, hpasses⟩
    have hguard : (decide (0 ≤ (ws.length : Int)) && c.has (field.size * (ws.length : Int)))
        = true := by
      rw [Bool.and_eq_true, decide_eq_true_eq, ← Int.natCast_mul]
      exact ⟨Int.natCast_nonneg _, hfits⟩
    rw [if_pos hguard, Int.toNat_natCast, map_slice_of_passes hpasses, hmoved]

end Cursor

namespace Binary

/-! ## Languages of decoding steps -/

/-- The results of a step with the octets each is made of. -/
abbrev Language (α : Type) : Type := α → List UInt8 → Prop

/-- The step succeeds on exactly the octets of the language and passes over them. -/
def Takes {α : Type} (step : Decode α) (language : Language α) : Prop :=
  ∀ ⦃c : Cursor⦄, c.Inside → ∀ ⦃a : α⦄ ⦃c' : Cursor⦄,
    step c = .ok a c' ↔ ∃ bytes, language a bytes ∧ c.Passes bytes c'

/-- Every failure of the step is in the class. -/
def FailsIn {α : Type} (step : Decode α) (failures : Failure → Prop) : Prop :=
  ∀ ⦃c c' : Cursor⦄ ⦃failure : Failure⦄, step c = .error failure c' → failures failure

section Calculus

variable {α β : Type} {step : Decode α} {next : α → Decode β}
  {language language' : Language α} {failures : Failure → Prop}

theorem bind_eq_ok {c : Cursor} {b : β} {c'' : Cursor} :
    (step >>= next) c = .ok b c'' ↔ ∃ a c', step c = .ok a c' ∧ next a c' = .ok b c'' := by
  change EStateM.bind step next c = _ ↔ _
  unfold EStateM.bind
  cases step c with
  | ok a c' => simp
  | error failure c' => simp

theorem bind_eq_error {c : Cursor} {failure : Failure} {c'' : Cursor} :
    (step >>= next) c = .error failure c'' ↔
      step c = .error failure c'' ∨ ∃ a c', step c = .ok a c' ∧ next a c' = .error failure c'' := by
  change EStateM.bind step next c = _ ↔ _
  unfold EStateM.bind
  cases step c with
  | ok a c' => simp
  | error failure c' => simp

namespace Takes

theorem congr (h : Takes step language) (heq : ∀ a bytes, language a bytes ↔ language' a bytes) :
    Takes step language' := by
  intro c hc a c'
  rw [h hc]
  exact exists_congr fun bytes => and_congr_left' (heq a bytes)

/-- Octets begin with at most one member of the language of a step. -/
theorem unique (h : Takes step language) {a a' : α} {u u' bytes : List UInt8}
    (hu : language a u) (hu' : language a' u') (hbegins : u <+: bytes) (hbegins' : u' <+: bytes) :
    a' = a ∧ u' = u := by
  have hstart : ({ data := bytes.toArray } : Cursor).Inside := Nat.zero_le _
  have hstep := (h hstart).mpr ⟨u, hu, Cursor.Passes.advance hbegins⟩
  have hstep' := (h hstart).mpr ⟨u', hu', Cursor.Passes.advance hbegins'⟩
  rw [hstep] at hstep'
  obtain ⟨hresult, hmoved⟩ := EStateM.Result.ok.inj hstep'
  have hlength : u'.length = u.length := by
    have hpos := congrArg Cursor.pos hmoved
    simp only [Cursor.advance] at hpos
    omega
  refine ⟨hresult.symm, List.IsPrefix.eq_of_length ?_ hlength⟩
  exact List.prefix_of_prefix_length_le hbegins' hbegins hlength.le

theorem pure (a : α) : Takes (pure a) fun b bytes => b = a ∧ bytes = [] := by
  intro c _ b c'
  change EStateM.Result.ok a c = .ok b c' ↔ _
  constructor
  · intro h
    obtain ⟨rfl, rfl⟩ := EStateM.Result.ok.inj h
    exact ⟨[], ⟨rfl, rfl⟩, .nil c⟩
  · rintro ⟨_, ⟨rfl, rfl⟩, hpasses⟩
    rw [hpasses.eq_advance]
    rfl

theorem throw (failure : Failure) : Takes (throw failure : Decode α) fun _ _ => False := by
  intro c _ a c'
  change EStateM.Result.error failure c = .ok a c' ↔ _
  simp

/-- The language of a step that gives `value i` on the octets `octets i`, and of a next step that
depends on its result: some octets of the first, then octets of the second. -/
theorem bind {ι : Type} {value : ι → α} {octets : ι → List UInt8} {follow : ι → Language β}
    (h : Takes step fun a u => ∃ i, a = value i ∧ u = octets i)
    (hnext : ∀ i, Takes (next (value i)) (follow i)) :
    Takes (step >>= next) fun b bytes => ∃ i v, follow i b v ∧ bytes = octets i ++ v := by
  intro c hc b c''
  rw [bind_eq_ok]
  constructor
  · rintro ⟨a, c', hstep, hrest⟩
    obtain ⟨u, ⟨i, rfl, rfl⟩, hpasses⟩ := (h hc).mp hstep
    obtain ⟨v, hv, hpasses'⟩ := (hnext i (hpasses.inside hc)).mp hrest
    exact ⟨octets i ++ v, ⟨i, v, hv, rfl⟩, hpasses.trans hpasses'⟩
  · rintro ⟨_, ⟨i, v, hv, rfl⟩, hpasses⟩
    obtain ⟨c', hfirst, hsecond⟩ := hpasses.split
    exact ⟨value i, c', (h hc).mpr ⟨_, ⟨i, rfl, rfl⟩, hfirst⟩,
      (hnext i (hfirst.inside hc)).mpr ⟨v, hv, hsecond⟩⟩

theorem map (h : Takes step language) (f : α → β) :
    Takes (step >>= fun a => Pure.pure (f a)) fun b bytes => ∃ a, language a bytes ∧ b = f a := by
  intro c hc b c''
  rw [bind_eq_ok]
  constructor
  · rintro ⟨a, c', hstep, hrest⟩
    obtain ⟨rfl, rfl⟩ := EStateM.Result.ok.inj hrest
    obtain ⟨bytes, hbytes, hpasses⟩ := (h hc).mp hstep
    exact ⟨bytes, ⟨a, hbytes, rfl⟩, hpasses⟩
  · rintro ⟨bytes, ⟨a, hbytes, rfl⟩, hpasses⟩
    exact ⟨a, c'', (h hc).mpr ⟨bytes, hbytes, hpasses⟩, rfl⟩

/-- A check in front of the steps that follow takes nothing and only narrows their language. -/
theorem check {next : Unit → Decode β} {language : Language β} (h : Takes (next ()) language)
    {p : Prop} [Decidable p] {failure : Failure} :
    Takes (if p then MonadExcept.throw failure >>= next else next ()) fun b bytes =>
      ¬p ∧ language b bytes := by
  intro c hc b c'
  by_cases hp : p
  · rw [if_pos hp, bind_eq_ok]
    simp only [throw failure hc, hp]
    simp
  · rw [if_neg hp, h hc]
    simp [hp]

theorem ite {other : Decode α} {p : Prop} [Decidable p] (h : Takes step language)
    (hother : Takes other language') :
    Takes (if p then step else other) fun a bytes =>
      (p ∧ language a bytes) ∨ (¬p ∧ language' a bytes) := by
  intro c hc a c'
  by_cases hp : p
  · rw [if_pos hp, h hc]
    simp [hp]
  · rw [if_neg hp, hother hc]
    simp [hp]

theorem need {read : Cursor → Option (α × Cursor)} {failure : Cursor → Failure}
    (h : ∀ ⦃c : Cursor⦄, c.Inside → ∀ ⦃a c'⦄,
      read c = some (a, c') ↔ ∃ bytes, language a bytes ∧ c.Passes bytes c') :
    Takes (need read failure) language := by
  intro c hc a c'
  rw [← h hc]
  unfold Binary.need
  cases read c with
  | none => simp
  | some found =>
      obtain ⟨value, left⟩ := found
      simp

theorem group (fields : List Field) (failure : Cursor → Failure) :
    Takes (Binary.need (·.readGroup? fields) failure) fun values bytes =>
      ∃ ws, values = Field.readGroup fields ws ∧ bytes = Field.encodeGroup fields ws := by
  refine need fun c hc values c' => ?_
  rw [Cursor.readGroup?_eq_some_iff hc]
  constructor
  · rintro ⟨ws, hvalues, hpasses⟩
    exact ⟨_, ⟨ws, hvalues, rfl⟩, hpasses⟩
  · rintro ⟨_, ⟨ws, hvalues, rfl⟩, hpasses⟩
    exact ⟨ws, hvalues, hpasses⟩

/-- The language of a group of fields and of what follows it. The next language is given, for no
unification finds it behind the pattern that takes the values apart. -/
theorem groupThen {fields : List Field} {failure : Cursor → Failure}
    {next : Field.Values fields → Decode β} (follow : Field.Words fields → Language β)
    (hnext : ∀ ws, Takes (next (Field.readGroup fields ws)) (follow ws)) :
    Takes (Binary.need (·.readGroup? fields) failure >>= next) fun b bytes =>
      ∃ ws v, follow ws b v ∧ bytes = Field.encodeGroup fields ws ++ v :=
  bind (group fields failure) hnext

theorem field (field : Field) (failure : Cursor → Failure) :
    Takes (Binary.need (·.read? field) failure) fun value bytes =>
      ∃ w, value = field.read w ∧ bytes = field.encode w := by
  refine need fun c hc value c' => ?_
  rw [Cursor.read?_eq_some_iff hc]
  constructor
  · rintro ⟨w, hvalue, hpasses⟩
    exact ⟨_, ⟨w, hvalue, rfl⟩, hpasses⟩
  · rintro ⟨_, ⟨w, hvalue, rfl⟩, hpasses⟩
    exact ⟨w, hvalue, hpasses⟩

/-- The language of an array with a declared count, and of what is made of its values. -/
theorem arrayInto (field : Field) (count : Int) (failure : Cursor → Failure)
    (make : List field.Value → α) :
    Takes (Binary.need (·.readArray? field count) failure >>= fun values => Pure.pure (make values))
      fun a bytes => ∃ ws : List field.Word, (ws.length : Int) = count
        ∧ a = make (ws.map field.read) ∧ bytes = Field.encodeArray field ws := by
  have harray : Takes (Binary.need (·.readArray? field count) failure) fun values bytes =>
      ∃ ws : List field.Word, (ws.length : Int) = count ∧ values = ws.map field.read
        ∧ bytes = Field.encodeArray field ws := by
    refine need fun c hc values c' => ?_
    rw [Cursor.readArray?_eq_some_iff hc]
    constructor
    · rintro ⟨ws, hcount, hvalues, hpasses⟩
      exact ⟨_, ⟨ws, hcount, hvalues, rfl⟩, hpasses⟩
    · rintro ⟨_, ⟨ws, hcount, hvalues, rfl⟩, hpasses⟩
      exact ⟨ws, hcount, hvalues, hpasses⟩
  refine (harray.map make).congr fun a bytes => ?_
  constructor
  · rintro ⟨_, ⟨ws, hcount, rfl, hbytes⟩, rfl⟩
    exact ⟨ws, hcount, rfl, hbytes⟩
  · rintro ⟨ws, hcount, rfl, hbytes⟩
    exact ⟨_, ⟨ws, hcount, rfl, hbytes⟩, rfl⟩

end Takes

/-! ## Failures of decoding steps -/

namespace FailsIn

theorem pure (a : α) : FailsIn (pure a) failures := by
  intro c c' failure h
  cases h

theorem throw {failure : Failure} (h : failures failure) :
    FailsIn (throw failure : Decode α) failures := by
  intro c c' other heq
  obtain ⟨rfl, -⟩ := EStateM.Result.error.inj heq
  exact h

theorem bind (h : FailsIn step failures) (hnext : ∀ a, FailsIn (next a) failures) :
    FailsIn (step >>= next) failures := by
  intro c c' failure heq
  rcases bind_eq_error.mp heq with hstep | ⟨a, left, -, hrest⟩
  · exact h hstep
  · exact hnext a hrest

theorem check {next : Unit → Decode β} {p : Prop} [Decidable p] {failure : Failure}
    (hfailure : failures failure) (h : FailsIn (next ()) failures) :
    FailsIn (if p then MonadExcept.throw failure >>= next else next ()) failures := by
  split
  · exact (throw hfailure).bind fun _ => h
  · exact h

theorem need {read : Cursor → Option (α × Cursor)} {failure : Cursor → Failure}
    (h : ∀ c, failures (failure c)) : FailsIn (need read failure) failures := by
  intro c c' other heq
  unfold Binary.need at heq
  split at heq
  · cases heq
  · obtain ⟨rfl, -⟩ := EStateM.Result.error.inj heq
    exact h c

end FailsIn

end Calculus

end Binary

end LogicCapture
