import LogicCapture.Number.Binary64

/-!
# Packed fields

The fixed-width fields that binary captures are made of, least significant octet first: whole
numbers with or without a sign, and floating-point numbers of two sizes. The type of a field fixes
the type of its value, and the types of a group of fields that of the tuple of their values.
-/

namespace LogicCapture

inductive Width where
  | one
  | two
  | four
  | eight
  deriving Repr, DecidableEq

def Width.size : Width → Nat
  | .one => 1
  | .two => 2
  | .four => 4
  | .eight => 8

def Width.span : Width → Nat
  | .one => 0x100
  | .two => 0x10000
  | .four => 0x100000000
  | .eight => 0x10000000000000000

inductive Field where
  | unsigned (width : Width)
  | signed (width : Width)
  | binary32
  | binary64
  deriving Repr, DecidableEq

namespace Field

abbrev u32 : Field := .unsigned .four
abbrev u64 : Field := .unsigned .eight
abbrev i32 : Field := .signed .four
abbrev i64 : Field := .signed .eight
abbrev f32 : Field := .binary32
abbrev f64 : Field := .binary64

def size : Field → Nat
  | unsigned width => width.size
  | signed width => width.size
  | binary32 => 4
  | binary64 => 8

theorem size_pos (field : Field) : 0 < field.size := by
  cases field with
  | unsigned width => cases width <;> decide
  | signed width => cases width <;> decide
  | binary32 => decide
  | binary64 => decide

abbrev Value : Field → Type
  | unsigned _ => Nat
  | signed _ => Int
  | binary32 => Float
  | binary64 => Float

/-- The whole number whose digits to the base 256 are the octets, least significant first. -/
def wordOf : List UInt8 → Nat
  | [] => 0
  | b :: bs => b.toNat + 256 * wordOf bs

/-- The value that the octets of a field stand for. -/
def decode : (field : Field) → List UInt8 → field.Value
  | unsigned _, bytes => wordOf bytes
  | signed width, bytes => (wordOf bytes : Int).bmod width.span
  | binary32, bytes => widen (wordOf bytes)
  | binary64, bytes => Float.ofBits (UInt64.ofNat (wordOf bytes))

def groupSize : List Field → Nat
  | [] => 0
  | field :: fields => field.size + groupSize fields

@[reducible]
def Values : List Field → Type
  | [] => Unit
  | field :: fields => field.Value × Values fields

def decodeGroup : (fields : List Field) → List UInt8 → Values fields
  | [], _ => ()
  | field :: fields, bytes =>
    (field.decode (bytes.take field.size), decodeGroup fields (bytes.drop field.size))

end Field

end LogicCapture
