import LogicCapture.Bytes.Field

/-!
# Reading packed data

A cursor is a position in a sequence of octets. A read either fits into what is left and moves the
cursor past exactly the octets it took, or does not fit and gives nothing, so the caller still has
the cursor from before.
-/

namespace LogicCapture

/-- A position in a sequence of octets. The position may lie beyond the end, where nothing fits. -/
structure Cursor where
  data : Array UInt8
  pos : Nat := 0
  deriving Repr, DecidableEq

namespace Cursor

/-- The number of octets left; negative beyond the end. -/
def remaining (c : Cursor) : Int :=
  (c.data.size : Int) - c.pos

def unread (c : Cursor) : List UInt8 :=
  c.data.toList.drop c.pos

def has (c : Cursor) (size : Int) : Bool :=
  0 ≤ size && c.pos + size ≤ c.data.size

def slice (c : Cursor) (offset size : Nat) : List UInt8 :=
  (c.data.extract (c.pos + offset) (c.pos + offset + size)).toList

def advance (c : Cursor) (size : Nat) : Cursor :=
  { c with pos := c.pos + size }

theorem has_iff {c : Cursor} {size : Nat} : c.has size = true ↔ c.pos + size ≤ c.data.size := by
  simp [has]
  omega

theorem slice_eq (c : Cursor) (offset size : Nat) :
    c.slice offset size = (c.unread.drop offset).take size := by
  simp [slice, unread, List.drop_drop, List.take_drop, Nat.add_assoc]

@[simp] theorem unread_advance (c : Cursor) (size : Nat) :
    (c.advance size).unread = c.unread.drop size := by
  simp [unread, advance, List.drop_drop]

def startsWith (c : Cursor) (bytes : List UInt8) : Bool :=
  c.has bytes.length && c.slice 0 bytes.length == bytes

def skip? (c : Cursor) (size : Int) : Option Cursor :=
  if c.has size then some (c.advance size.toNat) else none

def read? (c : Cursor) (field : Field) : Option (field.Value × Cursor) :=
  if c.has field.size then some (field.decode (c.slice 0 field.size), c.advance field.size)
  else none

def readGroup? (c : Cursor) (fields : List Field) : Option (Field.Values fields × Cursor) :=
  let size := Field.groupSize fields
  if c.has size then some (Field.decodeGroup fields (c.slice 0 size), c.advance size) else none

/-- Read an array of fields of one kind, all of them or none. The count may come from the data and
be of any size: it is compared with what is left before anything is read. -/
def readArray? (c : Cursor) (field : Field) (count : Int) : Option (List field.Value × Cursor) :=
  if 0 ≤ count && c.has (field.size * count) then
    some ((List.range count.toNat).map fun i => field.decode (c.slice (i * field.size) field.size),
      c.advance (field.size * count.toNat))
  else none

end Cursor

end LogicCapture
