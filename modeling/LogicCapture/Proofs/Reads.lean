import Mathlib
import LogicCapture.Proofs.Decoding

/-!
# Reads are all or nothing

A read takes exactly its octets, or nothing if they are not all there. What is asked of a cursor is
a call, and `Call.allOrNone_step` says of every call when it is refused and where it leaves the
cursor; so a run of calls never moves back and never leaves the data (`follows_after`).

Fields are read singly, as a group or as an array, each with a check of its own in front. The checks
agree, as octets that are taken at once can be taken in parts (`takeAll_add`): a group comes to its
fields read one by one (`readGroup?_cons`), and an array to a group of equal fields
(`readArray?_succ`). Whole numbers are written in two's complement and read back as they were
(`readGroup?_numbers`).
-/

namespace LogicCapture

namespace Field

/-! ## Whole numbers in fields -/

def twosComplement (size : Nat) (n : Int) : List UInt8 :=
  octets size (n % (2 ^ (8 * size) : Nat)).toNat

/-- A whole number in the range of the field that holds it. -/
inductive Whole : Field → Type where
  | unsigned (width : Width) (n : Nat) (most : n < 2 ^ (8 * width.size)) : Whole (.unsigned width)
  | signed (width : Width) (n : Int) (least : -2 ^ (8 * width.size - 1) ≤ n)
      (most : n < 2 ^ (8 * width.size - 1)) : Whole (.signed width)

namespace Whole

def value : {field : Field} → Whole field → field.Value
  | _, unsigned _ n _ => n
  | _, signed _ n _ _ => n

def octets : {field : Field} → Whole field → List UInt8
  | _, unsigned width n _ => twosComplement width.size n
  | _, signed width n _ _ => twosComplement width.size n

def word : {field : Field} → Whole field → field.Word
  | _, unsigned _ n _ => BitVec.ofNat _ n
  | _, signed _ n _ _ => BitVec.ofInt _ n

variable {field : Field}

theorem encode_word (p : Whole field) : field.encode p.word = p.octets := by
  cases p with
  | unsigned width n most =>
      show Field.octets width.size (BitVec.ofNat (8 * width.size) n).toNat
        = Field.octets width.size ((n : Int) % (2 ^ (8 * width.size) : Nat)).toNat
      rw [BitVec.toNat_ofNat, ← Int.natCast_mod, Int.toNat_natCast]
  | signed width n least most =>
      show Field.octets width.size (BitVec.ofInt (8 * width.size) n).toNat
        = Field.octets width.size (n % (2 ^ (8 * width.size) : Nat)).toNat
      rw [BitVec.toNat_ofInt]

theorem read_word (p : Whole field) : field.read p.word = p.value := by
  cases p with
  | unsigned width n most => exact Nat.mod_eq_of_lt most
  | signed width n least most =>
      have hhalf : 2 ^ (8 * width.size) = 2 * 2 ^ (8 * width.size - 1) := by
        cases width <;> rfl
      show (BitVec.ofInt (8 * width.size) n).toInt = n
      rw [BitVec.toInt_ofInt, hhalf]
      apply Int.bmod_eq_of_le
      · push_cast
        omega
      · push_cast
        omega

end Whole

variable {field : Field}

def numberOctets (numbers : List (Sigma Whole)) : List UInt8 :=
  numbers.flatMap fun number => number.2.octets

def numberValues : (numbers : List (Sigma Whole)) → Values (numbers.map Sigma.fst)
  | [] => ()
  | number :: numbers => (number.2.value, numberValues numbers)

theorem encodeArray_word (numbers : List (Whole field)) :
    encodeArray field (numbers.map Whole.word) = numbers.flatMap Whole.octets := by
  rw [encodeArray, List.flatMap_map]
  exact List.flatMap_congr fun p _ => p.encode_word

theorem exists_words (numbers : List (Sigma Whole)) :
    ∃ ws, encodeGroup (numbers.map Sigma.fst) ws = numberOctets numbers
      ∧ readGroup (numbers.map Sigma.fst) ws = numberValues numbers := by
  induction numbers with
  | nil => exact ⟨(), rfl, rfl⟩
  | cons number numbers ih =>
      obtain ⟨ws, hoctets, hvalues⟩ := ih
      refine ⟨(number.2.word, ws), ?_, ?_⟩
      · rw [numberOctets, List.flatMap_cons, ← numberOctets, ← hoctets, ← number.2.encode_word]
        rfl
      · rw [numberValues, ← hvalues, ← number.2.read_word]
        rfl

/-! ## Groups of fields -/

theorem groupSize_eq_sum (fields : List Field) : groupSize fields = (fields.map size).sum := by
  induction fields with
  | nil => rfl
  | cons field fields ih => rw [groupSize, ih, List.map_cons, List.sum_cons]

def listOf (field : Field) : (n : Nat) → Values (List.replicate n field) → List field.Value
  | 0, _ => []
  | n + 1, (value, values) => value :: listOf field n values

end Field

namespace Cursor

variable {c c' : Cursor} {field : Field} {fields : List Field}

/-! ## Octets that are left -/

/-- So many octets are there behind the cursor. Behind the end not even none are. -/
def HasLeft (c : Cursor) (size : Int) : Prop :=
  0 ≤ size ∧ c.pos + size ≤ c.data.size

theorem has_iff_hasLeft {size : Int} : c.has size = true ↔ c.HasLeft size := by
  rw [has, Bool.and_eq_true, decide_eq_true_eq, decide_eq_true_eq, HasLeft]

theorem HasLeft.inside {size : Int} (h : c.HasLeft size) : c.Inside := by
  obtain ⟨hnonneg, hle⟩ := h
  rw [Inside]
  omega

theorem HasLeft.inside_advance {size : Nat} (h : c.HasLeft size) : (c.advance size).Inside := by
  obtain ⟨-, hle⟩ := h
  rw [Inside, advance]
  dsimp only
  omega

theorem hasLeft_zero : c.HasLeft 0 ↔ c.Inside := by
  rw [HasLeft, Inside]
  omega

theorem hasLeft_add {first second : Nat} :
    c.HasLeft (first + second : Nat) ↔ c.HasLeft first ∧ (c.advance first).HasLeft second := by
  simp only [HasLeft, advance]
  omega

/-- As a field is not empty, only counts without a sign can be there. -/
theorem HasLeft.count_nonneg {count : Int} (h : c.HasLeft (field.size * count)) : 0 ≤ count :=
  Int.nonneg_of_mul_nonneg_right h.1 (Int.natCast_pos.mpr field.size_pos)

theorem startsWith_iff_hasLeft {bytes : List UInt8} :
    c.startsWith bytes = true ↔ c.HasLeft bytes.length ∧ bytes <+: c.unread := by
  by_cases h : c.HasLeft bytes.length
  · rw [startsWith_iff h.inside, and_iff_right h]
  · rw [startsWith, Bool.and_eq_true, has_iff_hasLeft]
    exact iff_of_false (fun hstarts => h hstarts.1) fun hboth => h hboth.1

theorem skip?_eq_some {size : Int} (h : c.HasLeft size) :
    c.skip? size = some (c.advance size.toNat) :=
  if_pos (has_iff_hasLeft.mpr h)

theorem skip?_eq_none {size : Int} (h : ¬c.HasLeft size) : c.skip? size = none :=
  if_neg fun hhas => h (has_iff_hasLeft.mp hhas)

/-! ## Reads of so many octets

Each of the three reads looks for its octets first, and then makes a value of them.
-/

section TakeAll

variable {α β γ : Type} {size : Nat} {value : α}

/-- Take so many octets, which make this value, if all of them are there. -/
def takeAll (c : Cursor) (size : Nat) (value : α) : Option (α × Cursor) :=
  if c.has size then some (value, c.advance size) else none

theorem takeAll_eq_some (h : c.HasLeft size) :
    c.takeAll size value = some (value, c.advance size) :=
  if_pos (has_iff_hasLeft.mpr h)

theorem takeAll_eq_none (h : ¬c.HasLeft size) : c.takeAll size value = none :=
  if_neg fun hhas => h (has_iff_hasLeft.mp hhas)

theorem takeAll_map (c : Cursor) (size : Nat) (value : α) (f : α → β) :
    ((c.takeAll size value).map fun (a, c) => (f a, c)) = c.takeAll size (f value) := by
  unfold takeAll
  split <;> rfl

/-- Octets are taken at once just when they can be taken in two parts. -/
theorem takeAll_add (c : Cursor) (first second : Nat) (a : α) (b : Cursor → β) (f : α → β → γ) :
    c.takeAll (first + second) (f a (b (c.advance first)))
      = (c.takeAll first a).bind fun (a, c) =>
          (c.takeAll second (b c)).map fun (b, c) => (f a b, c) := by
  by_cases hfirst : c.HasLeft first
  · rw [takeAll_eq_some hfirst, Option.bind_some]
    dsimp only
    by_cases hsecond : (c.advance first).HasLeft second
    · rw [takeAll_eq_some hsecond, takeAll_eq_some (hasLeft_add.mpr ⟨hfirst, hsecond⟩),
        Option.map_some]
      simp only [advance, Nat.add_assoc]
    · rw [takeAll_eq_none hsecond, takeAll_eq_none fun hall => hsecond (hasLeft_add.mp hall).2,
        Option.map_none]
  · rw [takeAll_eq_none hfirst, takeAll_eq_none fun hall => hfirst (hasLeft_add.mp hall).1,
      Option.bind_none]

theorem read?_eq_takeAll (c : Cursor) (field : Field) :
    c.read? field = c.takeAll field.size (field.decode (c.slice 0 field.size)) := rfl

theorem readGroup?_eq_takeAll (c : Cursor) (fields : List Field) :
    c.readGroup? fields = c.takeAll (Field.groupSize fields)
      (Field.decodeGroup fields (c.slice 0 (Field.groupSize fields))) := rfl

/-- A count without a sign passes its check, whatever its size. -/
theorem readArray?_eq_takeAll (c : Cursor) (field : Field) (n : Nat) :
    c.readArray? field n = c.takeAll (field.size * n)
      ((List.range n).map fun i => field.decode (c.slice (i * field.size) field.size)) := by
  rw [readArray?, decide_eq_true (Int.natCast_nonneg n), Bool.true_and, ← Int.natCast_mul,
    Int.toNat_natCast, takeAll]

theorem readArray?_eq_none {count : Int} (h : ¬c.HasLeft (field.size * count)) :
    c.readArray? field count = none := by
  refine if_neg fun hguard => h ?_
  rw [Bool.and_eq_true] at hguard
  exact has_iff_hasLeft.mp hguard.2

end TakeAll

/-! ## One field after the other -/

theorem slice_advance (c : Cursor) (size offset length : Nat) :
    (c.advance size).slice offset length = c.slice (size + offset) length := by
  simp only [slice, advance, Nat.add_assoc]

theorem take_slice (c : Cursor) (first second : Nat) :
    (c.slice 0 (first + second)).take first = c.slice 0 first := by
  rw [slice_eq, slice_eq, List.take_take, Nat.min_eq_left (Nat.le_add_right _ _)]

theorem drop_slice (c : Cursor) (first second : Nat) :
    (c.slice 0 (first + second)).drop first = (c.advance first).slice 0 second := by
  rw [slice_advance, slice_eq, slice_eq, List.drop_zero, List.drop_take, Nat.add_sub_cancel_left,
    Nat.add_zero]

theorem readGroup?_cons (c : Cursor) (field : Field) (fields : List Field) :
    c.readGroup? (field :: fields) = (c.read? field).bind fun (value, c) =>
      (c.readGroup? fields).map fun (values, c) => ((value, values), c) := by
  rw [readGroup?_eq_takeAll, Field.groupSize, Field.decodeGroup, take_slice, drop_slice]
  exact c.takeAll_add field.size (Field.groupSize fields) _
    (fun c => Field.decodeGroup fields (c.slice 0 (Field.groupSize fields))) Prod.mk

theorem Inside.readGroup?_nil (h : c.Inside) : c.readGroup? [] = some ((), c) :=
  takeAll_eq_some (hasLeft_zero.mpr h)

theorem readGroup?_singleton (c : Cursor) (field : Field) :
    c.readGroup? [field] = (c.read? field).map fun (value, c) => ((value, ()), c) := by
  rw [readGroup?_eq_takeAll, Field.groupSize, Field.decodeGroup, take_slice]
  exact (c.takeAll_map field.size (field.decode (c.slice 0 field.size)) (·, ())).symm

/-- Read fields one by one, each with its own check. -/
def readEach? (c : Cursor) : (fields : List Field) → Option (Field.Values fields × Cursor)
  | [] => some ((), c)
  | field :: fields => (c.read? field).bind fun (value, c) =>
    (c.readEach? fields).map fun (values, c) => ((value, values), c)

/-- Inside the data a group comes to its fields read one by one. Behind the end only the empty group
differs, which is not read there. -/
theorem Inside.readGroup?_eq_readEach? (h : c.Inside) (fields : List Field) :
    c.readGroup? fields = c.readEach? fields := by
  induction fields generalizing c with
  | nil => exact h.readGroup?_nil
  | cons field fields ih =>
      rw [readGroup?_cons, readEach?, read?_eq_takeAll]
      by_cases hfirst : c.HasLeft field.size
      · rw [takeAll_eq_some hfirst, Option.bind_some, Option.bind_some]
        dsimp only
        rw [ih hfirst.inside_advance]
      · rw [takeAll_eq_none hfirst]
        rfl

theorem map_slice_succ (c : Cursor) (field : Field) (n : Nat) :
    ((List.range (n + 1)).map fun i => field.decode (c.slice (i * field.size) field.size))
      = field.decode (c.slice 0 field.size) :: (List.range n).map fun i =>
          field.decode ((c.advance field.size).slice (i * field.size) field.size) := by
  rw [List.range_succ_eq_map, List.map_cons, List.map_map, Nat.zero_mul]
  refine congrArg _ (List.map_congr_left fun i _ => ?_)
  rw [Function.comp_apply, slice_advance, Nat.succ_mul, Nat.add_comm]

theorem readArray?_succ (c : Cursor) (field : Field) (n : Nat) :
    c.readArray? field (n + 1 : Nat) = (c.read? field).bind fun (value, c) =>
      (c.readArray? field n).map fun (values, c) => (value :: values, c) := by
  have hsize : field.size * (n + 1) = field.size + field.size * n := by
    rw [Nat.mul_succ, Nat.add_comm]
  simp only [readArray?_eq_takeAll]
  rw [map_slice_succ, hsize]
  exact c.takeAll_add field.size (field.size * n) _
    (fun c => (List.range n).map fun i => field.decode (c.slice (i * field.size) field.size))
    List.cons

/-- An array comes to a group of equal fields, however great the count. -/
theorem readArray?_eq_readGroup? (c : Cursor) (field : Field) (n : Nat) :
    c.readArray? field n = (c.readGroup? (List.replicate n field)).map fun (values, c) =>
      (field.listOf n values, c) := by
  induction n generalizing c with
  | zero =>
      -- the fields are spelled out, since the type of the values depends on them
      change _ = (c.readGroup? []).map fun (values, c) => (field.listOf 0 values, c)
      rw [readArray?_eq_takeAll, readGroup?_eq_takeAll, takeAll_map]
      rfl
  | succ n ih =>
      change _ = (c.readGroup? (field :: List.replicate n field)).map fun (values, c) =>
        (field.listOf (n + 1) values, c)
      rw [readArray?_succ, readGroup?_cons]
      cases c.read? field with
      | none => rfl
      | some found =>
          rw [Option.bind_some, Option.bind_some]
          dsimp only
          rw [ih]
          cases found.2.readGroup? (List.replicate n field) <;> rfl

/-! ## Calls -/

/-- What a cursor can be asked. -/
inductive Call where
  | length
  | remaining
  | has (size : Int)
  | startsWith (bytes : List UInt8)
  | skip (size : Int)
  | single (field : Field)
  | group (fields : List Field)
  | array (field : Field) (count : Int)

/-- The result of a read and the cursor behind it, which is the old one if the read does not fit. -/
def settle {α : Type} (c : Cursor) : Option (α × Cursor) → Option α × Cursor
  | some (value, c') => (some value, c')
  | none => (none, c)

namespace Call

abbrev Answer : Call → Type
  | .length => Nat
  | .remaining => Int
  | .has _ | .startsWith _ | .skip _ => Bool
  | .single field => Option field.Value
  | .group fields => Option (Field.Values fields)
  | .array field _ => Option (List field.Value)

def step (c : Cursor) : (call : Call) → call.Answer × Cursor
  | .length => (c.data.size, c)
  | .remaining => (c.remaining, c)
  | .has size => (c.has size, c)
  | .startsWith bytes => (c.startsWith bytes, c)
  | .skip size =>
    match c.skip? size with
    | some c' => (true, c')
    | none => (false, c)
  | .single field => c.settle (c.read? field)
  | .group fields => c.settle (c.readGroup? fields)
  | .array field count => c.settle (c.readArray? field count)

/-- The answer that something is not there. -/
def Refused : (call : Call) → call.Answer → Prop
  | .length, _ | .remaining, _ => False
  | .has _, yes | .startsWith _, yes | .skip _, yes => yes = false
  | .single _, value => value = none
  | .group _, values => values = none
  | .array _ _, values => values = none

/-- The number of octets that have to be there, for a call that is about octets at all. -/
def demand : Call → Option Int
  | .length | .remaining => none
  | .has size | .skip size => some size
  | .startsWith bytes => some bytes.length
  | .single field => some field.size
  | .group fields => some (fields.map Field.size).sum
  | .array field count => some (field.size * count)

/-- The number of octets that a call takes if they are there. -/
def taken : Call → Nat
  | .length | .remaining | .has _ | .startsWith _ => 0
  | .skip size => size.toNat
  | .single field => field.size
  | .group fields => (fields.map Field.size).sum
  | .array field count => field.size * count.toNat

def Fits (call : Call) (c : Cursor) : Prop :=
  ∀ size ∈ call.demand, c.HasLeft size

/-- Where a call names octets, these stand behind the cursor. -/
def Matches : Call → Cursor → Prop
  | .startsWith bytes, c => bytes <+: c.unread
  | _, _ => True

/-- A call takes all of its octets, or it is refused and takes none. -/
structure AllOrNone (call : Call) (c : Cursor) : Prop where
  refused_iff : call.Refused (call.step c).1 ↔ ¬(call.Fits c ∧ call.Matches c)
  moved : call.Fits c → (call.step c).2 = c.advance call.taken
  stayed : ¬call.Fits c → (call.step c).2 = c

theorem fits_iff {call : Call} {size : Int} (h : call.demand = some size) :
    call.Fits c ↔ c.HasLeft size := by
  simp [Fits, h]

theorem AllOrNone.of_hasLeft {call : Call} {size : Int} (hdemand : call.demand = some size)
    (hmatches : call.Matches c)
    (hleft : c.HasLeft size →
      ¬call.Refused (call.step c).1 ∧ (call.step c).2 = c.advance call.taken)
    (hshort : ¬c.HasLeft size → call.Refused (call.step c).1 ∧ (call.step c).2 = c) :
    call.AllOrNone c := by
  rw [← fits_iff hdemand] at hleft hshort
  refine ⟨⟨fun hrefused hfits => (hleft hfits.1).1 hrefused, fun hnot => ?_⟩,
    fun hfits => (hleft hfits).2, fun hnot => (hshort hnot).2⟩
  exact (hshort fun hfits => hnot ⟨hfits, hmatches⟩).1

theorem allOrNone_step (call : Call) (c : Cursor) : call.AllOrNone c := by
  cases call with
  | length => exact ⟨by simp [Refused, Fits, demand, Matches], fun _ => rfl, fun _ => rfl⟩
  | remaining => exact ⟨by simp [Refused, Fits, demand, Matches], fun _ => rfl, fun _ => rfl⟩
  | has size =>
      refine .of_hasLeft rfl trivial (fun h => ⟨?_, rfl⟩) fun h => ⟨?_, rfl⟩
      · exact (Bool.eq_false_iff.mp · (has_iff_hasLeft.mpr h))
      · exact Bool.eq_false_iff.mpr (mt has_iff_hasLeft.mp h)
  | startsWith bytes =>
      -- the only call that can be refused although its octets are there
      refine ⟨?_, fun _ => rfl, fun _ => rfl⟩
      rw [fits_iff rfl]
      exact Bool.eq_false_iff.trans (not_congr startsWith_iff_hasLeft)
  | skip size =>
      refine .of_hasLeft rfl trivial (fun h => ?_) fun h => ?_
      · rw [step, skip?_eq_some h]
        exact ⟨nofun, rfl⟩
      · rw [step, skip?_eq_none h]
        exact ⟨rfl, rfl⟩
  | single field =>
      refine .of_hasLeft rfl trivial (fun h => ?_) fun h => ?_
      · rw [step, read?_eq_takeAll, takeAll_eq_some h]
        exact ⟨nofun, rfl⟩
      · rw [step, read?_eq_takeAll, takeAll_eq_none h]
        exact ⟨rfl, rfl⟩
  | group fields =>
      refine .of_hasLeft rfl trivial (fun h => ?_) fun h => ?_
      · rw [← Field.groupSize_eq_sum] at h
        rw [step, readGroup?_eq_takeAll, takeAll_eq_some h, taken, ← Field.groupSize_eq_sum]
        exact ⟨nofun, rfl⟩
      · rw [← Field.groupSize_eq_sum] at h
        rw [step, readGroup?_eq_takeAll, takeAll_eq_none h]
        exact ⟨rfl, rfl⟩
  | array field count =>
      refine .of_hasLeft rfl trivial (fun h => ?_) fun h => ?_
      · obtain ⟨n, rfl⟩ := Int.eq_ofNat_of_zero_le h.count_nonneg
        rw [← Int.natCast_mul] at h
        rw [step, readArray?_eq_takeAll, takeAll_eq_some h]
        exact ⟨nofun, rfl⟩
      · rw [step, readArray?_eq_none h]
        exact ⟨rfl, rfl⟩

end Call

/-! ## Runs of calls -/

def after (c : Cursor) : List Call → Cursor
  | [] => c
  | call :: calls => (call.step c).2.after calls

theorem after_append (c : Cursor) (calls later : List Call) :
    c.after (calls ++ later) = (c.after calls).after later := by
  induction calls generalizing c with
  | nil => rfl
  | cons call calls ih => exact ih _

/-- A later place of a cursor in the same data: never further back, and not beyond the end unless it
has been there all along. -/
structure Follows (c c' : Cursor) : Prop where
  data_eq : c'.data = c.data
  pos_le : c.pos ≤ c'.pos
  inside : c.Inside → c'.Inside
  beyond : ¬c.Inside → c' = c

theorem Follows.refl (c : Cursor) : c.Follows c := ⟨rfl, Nat.le_refl _, id, fun _ => rfl⟩

theorem Follows.trans {c'' : Cursor} (h : c.Follows c') (h' : c'.Follows c'') : c.Follows c'' where
  data_eq := h'.data_eq.trans h.data_eq
  pos_le := h.pos_le.trans h'.pos_le
  inside hc := h'.inside (h.inside hc)
  beyond hc := by
    obtain rfl := h.beyond hc
    exact h'.beyond hc

/-- What a call that fits takes is there, unless it takes nothing. -/
theorem Call.Fits.hasLeft_taken {call : Call} (h : call.Fits c) :
    call.taken = 0 ∨ c.HasLeft call.taken := by
  cases call with
  | length | remaining | has _ | startsWith _ => exact .inl rfl
  | skip size =>
      have hsize : c.HasLeft size := h size rfl
      rw [taken, Int.toNat_of_nonneg hsize.1]
      exact .inr hsize
  | single field => exact .inr (h _ rfl)
  | group fields => exact .inr (h _ rfl)
  | array field count =>
      have hsize : c.HasLeft (field.size * count) := h _ rfl
      rw [taken, Int.natCast_mul, Int.toNat_of_nonneg hsize.count_nonneg]
      exact .inr hsize

theorem HasLeft.follows {size : Nat} (h : c.HasLeft size) : c.Follows (c.advance size) :=
  ⟨rfl, Nat.le_add_right _ _, fun _ => h.inside_advance, fun hc => absurd h.inside hc⟩

theorem follows_step (c : Cursor) (call : Call) : c.Follows (call.step c).2 := by
  have hcall := call.allOrNone_step c
  by_cases h : call.Fits c
  · rw [hcall.moved h]
    rcases h.hasLeft_taken with hnone | hleft
    · rw [hnone]
      exact .refl c
    · exact hleft.follows
  · rw [hcall.stayed h]
    exact .refl c

theorem follows_after (c : Cursor) (calls : List Call) : c.Follows (c.after calls) := by
  induction calls generalizing c with
  | nil => exact .refl c
  | cons call calls ih => exact (follows_step c call).trans (ih _)

/-! ## Groups, arrays and numbers -/

theorem isSome_readGroup?_iff (c : Cursor) (fields : List Field) :
    (c.readGroup? fields).isSome ↔ c.HasLeft (fields.map Field.size).sum := by
  rw [← Field.groupSize_eq_sum, readGroup?_eq_takeAll]
  by_cases h : c.HasLeft (Field.groupSize fields)
  · rw [takeAll_eq_some h]
    exact iff_of_true rfl h
  · rw [takeAll_eq_none h]
    exact iff_of_false nofun h

theorem readEach?_of_readGroup? {values : Field.Values fields}
    (h : c.readGroup? fields = some (values, c')) : c.readEach? fields = some (values, c') := by
  have hleft := (isSome_readGroup?_iff c fields).mp (h ▸ rfl)
  rw [← hleft.inside.readGroup?_eq_readEach?, h]

theorem after_singles (h : c.HasLeft (fields.map Field.size).sum) :
    c.after (fields.map .single) = c.advance (fields.map Field.size).sum := by
  induction fields generalizing c with
  | nil => rfl
  | cons field fields ih =>
      rw [List.map_cons, List.sum_cons] at h
      obtain ⟨hfirst, hothers⟩ := hasLeft_add.mp h
      have hstep : ((Call.single field).step c).2 = c.advance field.size := by
        rw [Call.step, read?_eq_takeAll, takeAll_eq_some hfirst, settle]
      rw [List.map_cons, after, hstep, ih hothers, List.map_cons, List.sum_cons]
      simp only [advance, Nat.add_assoc]

theorem Inside.readGroup?_numbers (hc : c.Inside) (numbers : List (Sigma Field.Whole))
    (h : Field.numberOctets numbers <+: c.unread) :
    c.readGroup? (numbers.map Sigma.fst)
      = some (Field.numberValues numbers, c.advance (Field.numberOctets numbers).length) := by
  obtain ⟨ws, hoctets, hvalues⟩ := Field.exists_words numbers
  refine (readGroup?_eq_some_iff hc).mpr ⟨ws, hvalues.symm, ?_⟩
  rw [hoctets]
  exact .advance h

theorem Inside.readArray?_numbers (hc : c.Inside) (numbers : List (Field.Whole field))
    (h : numbers.flatMap Field.Whole.octets <+: c.unread) :
    c.readArray? field numbers.length = some (numbers.map Field.Whole.value,
      c.advance (numbers.flatMap Field.Whole.octets).length) := by
  refine (readArray?_eq_some_iff hc).mpr ⟨numbers.map Field.Whole.word, ?_, ?_, ?_⟩
  · rw [List.length_map]
  · rw [List.map_map]
    exact List.map_congr_left fun p _ => p.read_word.symm
  · rw [Field.encodeArray_word]
    exact .advance h

/-- The ways to read several fields agree. -/
structure Composes (c : Cursor) : Prop where
  group_iff : ∀ fields, (c.readGroup? fields).isSome ↔ c.HasLeft (fields.map Field.size).sum
  /-- A group that is read gives what its fields give one by one, and ends where they end. -/
  group_eq : ∀ {fields values c'},
    c.readGroup? fields = some (values, c') → c.readEach? fields = some (values, c')
  /-- A group that is not read takes nothing, not even a part of it that is there and that its
  fields would take one by one. -/
  group_none : ∀ {lead rest},
    (c.readGroup? lead).isSome → c.readGroup? (lead ++ rest) = none →
      (Call.group (lead ++ rest)).step c = (none, c)
        ∧ c.after (lead.map .single) = c.advance (lead.map Field.size).sum
  single_eq : ∀ field,
    c.readGroup? [field] = (c.read? field).map fun (value, c') => ((value, ()), c')
  array_eq : ∀ field (n : Nat),
    c.readArray? field n = (c.readGroup? (List.replicate n field)).map fun (values, c') =>
      (field.listOf n values, c')
  array_negative : ∀ field {count : Int}, count < 0 →
    (Call.array field count).step c = (none, c)

theorem composes (c : Cursor) : c.Composes where
  group_iff := c.isSome_readGroup?_iff
  group_eq := readEach?_of_readGroup?
  group_none {lead rest} hlead hnone := by
    refine ⟨?_, after_singles ((c.isSome_readGroup?_iff lead).mp hlead)⟩
    rw [Call.step, hnone, settle]
  single_eq := c.readGroup?_singleton
  array_eq := c.readArray?_eq_readGroup?
  array_negative field count hneg := by
    have hnone : c.readArray? field count = none :=
      readArray?_eq_none fun h => absurd h.count_nonneg (Int.not_le.mpr hneg)
    rw [Call.step, hnone, settle]

/-- Wherever a cursor starts and whatever it is asked, each call takes all of its octets or none,
and the cursor neither moves back nor leaves the data. A group or an array is read exactly if all of
it is there, and then as its fields are one by one. Whole numbers within the ranges of their fields
are read back from their octets. -/
theorem calls_all_or_none (c : Cursor) :
    (∀ (calls : List Call) (call : Call), call.AllOrNone (c.after calls))
      ∧ (∀ calls later, (c.after calls).Follows (c.after (calls ++ later)))
      ∧ c.Composes
      ∧ (c.Inside →
        (∀ numbers : List (Sigma Field.Whole), Field.numberOctets numbers <+: c.unread →
          c.readGroup? (numbers.map Sigma.fst)
            = some (Field.numberValues numbers, c.advance (Field.numberOctets numbers).length))
        ∧ ∀ (field : Field) (numbers : List (Field.Whole field)),
          numbers.flatMap Field.Whole.octets <+: c.unread →
            c.readArray? field numbers.length = some (numbers.map Field.Whole.value,
              c.advance (numbers.flatMap Field.Whole.octets).length)) := by
  refine ⟨fun calls call => call.allOrNone_step _, fun calls later => ?_, c.composes, fun hc =>
    ⟨fun numbers => hc.readGroup?_numbers numbers, fun _ numbers => hc.readArray?_numbers numbers⟩⟩
  rw [after_append]
  exact follows_after _ later

/-- In front of two numbers, of four octets and of two. -/
def twoNumbers : Cursor where
  data := #[0x3C, 0xFE, 0xFF, 0xFF, 0xFF, 0x05, 0x80]
  pos := 1

/-- Both numbers are read, but not a group that is two octets longer than what is left. -/
theorem calls_all_or_none_twoNumbers :
    twoNumbers.Inside
      ∧ twoNumbers.readGroup? [.i32, .unsigned .two] = some ((-2, 0x8005, ()), twoNumbers.advance 6)
      ∧ (twoNumbers.readGroup? [.i32]).isSome ∧ twoNumbers.readGroup? [.i32, .u32] = none
      ∧ (Call.group [.i32, .u32]).step twoNumbers = (none, twoNumbers)
      ∧ twoNumbers.after [.single .i32] = twoNumbers.advance 4
      ∧ (Call.array .f64 (-1)).step twoNumbers = (none, twoNumbers) := by
  have hinside : twoNumbers.Inside := show 1 ≤ 7 by decide
  have hlead : (twoNumbers.readGroup? [.i32]).isSome := by decide
  have hnone : twoNumbers.readGroup? ([.i32] ++ [.u32]) = none := rfl
  obtain ⟨-, -, hcomposes, hnumbers⟩ := calls_all_or_none twoNumbers
  have hread := (hnumbers hinside).1
    [⟨_, .signed .four (-2) (by decide) (by decide)⟩, ⟨_, .unsigned .two 0x8005 (by decide)⟩]
    (by decide)
  obtain ⟨hgroup, hsingle⟩ := hcomposes.group_none hlead hnone
  exact ⟨hinside, hread, hlead, hnone, hgroup, hsingle, hcomposes.array_negative .f64 (by decide)⟩

end Cursor

end LogicCapture
