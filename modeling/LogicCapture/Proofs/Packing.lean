import Mathlib
import LogicCapture.Bytes.Cursor

/-!
# Packed fields as they are written

What a field of a capture holds is a word of its width. A word is written as its octets, least
significant first, and stands for a whole number or a double. Every word can be written, and the
octets of a field are those of exactly one word, so nothing is lost either way
(`decode_encode`, `exists_encode`). Groups and arrays of fields are written one field after the
other.
-/

namespace LogicCapture

namespace Field

/-! ## Octets of a number -/

/-- The lowest `size` digits of a number to the base 256, least significant first. -/
def octets : (size n : Nat) → List UInt8
  | 0, _ => []
  | size + 1, n => UInt8.ofNat n :: octets size (n / 256)

@[simp] theorem length_octets (size n : Nat) : (octets size n).length = size := by
  induction size generalizing n with
  | zero => rfl
  | succ size ih => simp [octets, ih]

theorem wordOf_octets (size n : Nat) : wordOf (octets size n) = n % 256 ^ size := by
  induction size generalizing n with
  | zero => simp [octets, wordOf, Nat.mod_one]
  | succ size ih =>
      have hlow : (UInt8.ofNat n).toNat = n % 256 := UInt8.toNat_ofNat'
      rw [octets, wordOf, ih, hlow, Nat.pow_succ', Nat.mod_mul]

theorem octets_wordOf (bytes : List UInt8) : octets bytes.length (wordOf bytes) = bytes := by
  induction bytes with
  | nil => rfl
  | cons b bs ih =>
      have hlow : UInt8.ofNat (b.toNat + 256 * wordOf bs) = b := by
        apply UInt8.toNat_inj.mp
        have := b.toNat_lt
        rw [UInt8.toNat_ofNat']
        omega
      have hhigh : (b.toNat + 256 * wordOf bs) / 256 = wordOf bs := by
        have := b.toNat_lt
        omega
      rw [List.length_cons, octets, wordOf, hlow, hhigh, ih]

theorem wordOf_lt (bytes : List UInt8) : wordOf bytes < 256 ^ bytes.length := by
  have h := wordOf_octets bytes.length (wordOf bytes)
  rw [octets_wordOf] at h
  rw [h]
  exact Nat.mod_lt _ (Nat.pow_pos (by decide))

/-! ## Words of fields -/

/-- What the octets of a field hold. -/
abbrev Word (field : Field) : Type := BitVec (8 * field.size)

def read : (field : Field) → field.Word → field.Value
  | unsigned _, w => w.toNat
  | signed _, w => w.toInt
  | binary32, w => widen w.toNat
  | binary64, w => Float.ofBits (UInt64.ofNat w.toNat)

def encode (field : Field) (w : field.Word) : List UInt8 :=
  octets field.size w.toNat

@[simp] theorem length_encode (field : Field) (w : field.Word) :
    (field.encode w).length = field.size :=
  length_octets _ _

theorem wordOf_encode (field : Field) (w : field.Word) : wordOf (field.encode w) = w.toNat := by
  rw [encode, wordOf_octets, show (256 : Nat) = 2 ^ 8 from rfl, ← Nat.pow_mul]
  exact Nat.mod_eq_of_lt w.isLt

theorem span_eq_two_pow (width : Width) : width.span = 2 ^ (8 * width.size) := by
  cases width <;> rfl

theorem decode_encode (field : Field) (w : field.Word) :
    field.decode (field.encode w) = field.read w := by
  cases field with
  | unsigned width => exact wordOf_encode _ w
  | signed width =>
      rw [decode, wordOf_encode, read, span_eq_two_pow, BitVec.toInt_eq_toNat_bmod]
      rfl
  | binary32 => rw [decode, wordOf_encode, read]
  | binary64 => rw [decode, wordOf_encode, read]

theorem exists_encode (field : Field) {bytes : List UInt8} (h : bytes.length = field.size) :
    ∃ w, field.encode w = bytes := by
  refine ⟨BitVec.ofNat _ (wordOf bytes), ?_⟩
  have hlt : wordOf bytes < 2 ^ (8 * field.size) := by
    rw [Nat.pow_mul, ← h]
    exact wordOf_lt bytes
  rw [encode, BitVec.toNat_ofNat, Nat.mod_eq_of_lt hlt, ← h, octets_wordOf]

theorem exists_encode_append (field : Field) {bytes : List UInt8} {n : Nat}
    (h : bytes.length = field.size + n) :
    ∃ w rest, bytes = field.encode w ++ rest ∧ rest.length = n := by
  have hfirst : (bytes.take field.size).length = field.size := by
    rw [List.length_take]
    omega
  obtain ⟨w, hw⟩ := exists_encode field hfirst
  refine ⟨w, bytes.drop field.size, by rw [hw, List.take_append_drop], ?_⟩
  rw [List.length_drop]
  omega

theorem ofNat_toNat_word {field : Field} (w : field.Word) : BitVec.ofNat _ w.toNat = w :=
  BitVec.eq_of_toNat_eq (Nat.mod_eq_of_lt w.isLt)

theorem read_unsigned_eq_iff {width : Width} {w : (unsigned width).Word} {n : Nat} :
    (unsigned width).read w = n ↔ n < width.span ∧ w = BitVec.ofNat _ n := by
  rw [span_eq_two_pow]
  constructor
  · rintro rfl
    exact ⟨w.isLt, (ofNat_toNat_word w).symm⟩
  · rintro ⟨hlt, rfl⟩
    exact Nat.mod_eq_of_lt hlt

/-- The one word of a signed field that stands for a number without a sign. -/
theorem read_signed_eq_iff {width : Width} {w : (signed width).Word} {n : Nat} :
    (signed width).read w = (n : Int) ↔ 2 * n < width.span ∧ w = BitVec.ofNat _ n := by
  rw [span_eq_two_pow, read, BitVec.toInt_eq_toNat_cond]
  change (if 2 * w.toNat < 2 ^ (8 * width.size) then (w.toNat : Int)
    else (w.toNat : Int) - (2 ^ (8 * width.size) : Nat)) = n ↔ _
  have hlt : w.toNat < 2 ^ (8 * width.size) := w.isLt
  constructor
  · intro h
    split at h
    · next hhalf =>
      have hword : w.toNat = n := by omega
      exact ⟨hword ▸ hhalf, by rw [← hword, ofNat_toNat_word]⟩
    · omega
  · rintro ⟨hhalf, rfl⟩
    have hword : (BitVec.ofNat (8 * (signed width).size) n).toNat = n :=
      Nat.mod_eq_of_lt (show n < 2 ^ (8 * width.size) by omega)
    rw [hword, if_pos hhalf]

/-! ## Groups -/

@[reducible]
def Words : List Field → Type
  | [] => Unit
  | field :: fields => field.Word × Words fields

def readGroup : (fields : List Field) → Words fields → Values fields
  | [], _ => ()
  | field :: fields, (w, ws) => (field.read w, readGroup fields ws)

def encodeGroup : (fields : List Field) → Words fields → List UInt8
  | [], _ => []
  | field :: fields, (w, ws) => field.encode w ++ encodeGroup fields ws

@[simp] theorem length_encodeGroup :
    ∀ (fields : List Field) (ws : Words fields),
      (encodeGroup fields ws).length = groupSize fields
  | [], _ => rfl
  | field :: fields, (w, ws) => by simp [encodeGroup, groupSize, length_encodeGroup fields ws]

theorem decodeGroup_encodeGroup :
    ∀ (fields : List Field) (ws : Words fields),
      decodeGroup fields (encodeGroup fields ws) = readGroup fields ws
  | [], _ => rfl
  | field :: fields, (w, ws) => by
      have hsize := length_encode field w
      rw [encodeGroup, decodeGroup, readGroup, List.take_left' hsize, List.drop_left' hsize,
        decode_encode, decodeGroup_encodeGroup fields ws]

theorem exists_encodeGroup :
    ∀ (fields : List Field) {bytes : List UInt8}, bytes.length = groupSize fields →
      ∃ ws, encodeGroup fields ws = bytes
  | [], _, h => ⟨(), (List.eq_nil_of_length_eq_zero h).symm⟩
  | field :: fields, _, h => by
      obtain ⟨w, rest, rfl, hrest⟩ := exists_encode_append field h
      obtain ⟨ws, rfl⟩ := exists_encodeGroup fields hrest
      exact ⟨(w, ws), rfl⟩

/-! ## Arrays -/

def encodeArray (field : Field) (ws : List field.Word) : List UInt8 :=
  ws.flatMap field.encode

@[simp] theorem length_encodeArray (field : Field) (ws : List field.Word) :
    (encodeArray field ws).length = field.size * ws.length := by
  induction ws with
  | nil => rfl
  | cons w ws ih =>
      rw [encodeArray, List.flatMap_cons, List.length_append, length_encode, ← encodeArray, ih,
        List.length_cons, Nat.mul_succ, Nat.add_comm]

theorem exists_encodeArray (field : Field) (count : Nat) :
    ∀ {bytes : List UInt8}, bytes.length = field.size * count →
      ∃ ws : List field.Word, ws.length = count ∧ encodeArray field ws = bytes := by
  induction count with
  | zero => exact fun h => ⟨[], rfl, (List.eq_nil_of_length_eq_zero h).symm⟩
  | succ count ih =>
      intro bytes h
      rw [Nat.mul_succ, Nat.add_comm] at h
      obtain ⟨w, rest, rfl, hrest⟩ := exists_encode_append field h
      obtain ⟨ws, rfl, rfl⟩ := ih hrest
      exact ⟨w :: ws, rfl, List.flatMap_cons⟩

theorem take_drop_encodeArray (field : Field) (ws : List field.Word) (rest : List UInt8) {i : Nat}
    (hi : i < ws.length) :
    ((encodeArray field ws ++ rest).drop (i * field.size)).take field.size
      = field.encode ws[i] := by
  induction ws generalizing i with
  | nil => cases hi
  | cons w ws ih =>
      have hsize := length_encode field w
      rw [encodeArray, List.flatMap_cons, ← encodeArray, List.append_assoc]
      cases i with
      | zero => rw [Nat.zero_mul, List.drop_zero, List.take_left' hsize, List.getElem_cons_zero]
      | succ i =>
          rw [Nat.succ_mul, Nat.add_comm, ← List.drop_drop, List.drop_left' hsize,
            ih (Nat.lt_of_succ_lt_succ hi), List.getElem_cons_succ]

end Field

end LogicCapture
