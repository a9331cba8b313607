import LogicCapture.Bytes.Cursor
import LogicCapture.Failure

/-!
# Capture headers

A binary capture comes in one of three containers. The oldest one opens with a file identifier; the
two later ones open with a tag, and the last one also says how many chunks follow. Any container
holds either digital or analog data.
-/

namespace LogicCapture.Binary

/-- A step of decoding: it moves the cursor and may fail, in which case the cursor stays where the
failure was found. -/
abbrev Decode := EStateM Failure Cursor

/-- Take a read that may not fit; `failure` sees the cursor of the read. -/
def need {α : Type} (read : Cursor → Option (α × Cursor)) (failure : Cursor → Failure) :
    Decode α := fun cursor =>
  match read cursor with
  | some (value, cursor) => .ok value cursor
  | none => .error (failure cursor) cursor

/-! ## The parts of a header -/

inductive Container where
  | legacy
  | taggedV0
  | taggedV1
  deriving Repr, DecidableEq

inductive DataKind where
  | digital
  | analog
  deriving Repr, DecidableEq

inductive Version where
  | v0
  | v1
  deriving Repr, DecidableEq

def Container.version : Container → Version
  | .taggedV1 => .v1
  | _ => .v0

def Version.number : Version → Nat
  | .v0 => 0
  | .v1 => 1

def Container.tagged : Container → Bool
  | .legacy => false
  | _ => true

def Container.label : Container → String
  | .legacy => "legacy"
  | .taggedV0 => "tagged_v0"
  | .taggedV1 => "tagged_v1"

def DataKind.label : DataKind → String
  | .digital => "digital"
  | .analog => "analog"

def DataKind.ofNumber (raw : Int) : Except Failure DataKind :=
  if raw = 0 then .ok .digital
  else if raw = 1 then .ok .analog
  else .error (.unsupportedDataKind raw)

/-- What the header of a capture says. The two older containers hold one chunk. -/
structure Header where
  container : Container
  dataKind : DataKind
  chunkCount : Nat := 1
  deriving Repr, DecidableEq

def tag : List UInt8 :=
  [0x3C, 0x53, 0x41, 0x4C, 0x45, 0x41, 0x45, 0x3E]

def legacyFileId : Nat := 0x2F00

/-! ## Decoding -/

def decodeDataKind (raw : Int) : Decode DataKind :=
  match DataKind.ofNumber raw with
  | .ok kind => pure kind
  | .error failure => throw failure

def Header.decodeTagged : Decode Header := do
  let (version, raw, ()) ← need (·.readGroup? [.i32, .i32]) fun _ => .taggedHeaderTruncated
  let dataKind ← decodeDataKind raw
  if version = 1 then
    let count ← need (·.read? .i64) fun _ => .taggedHeaderTruncated
    if count < 0 then throw (.chunkCountInvalid count)
    return { container := .taggedV1, dataKind, chunkCount := count.toNat }
  if version = 0 then
    return { container := .taggedV0, dataKind }
  throw (.unsupportedVersion version)

def Header.decodeLegacy : Decode Header := do
  let (fileId, version, raw, ()) ←
    need (·.readGroup? [.u32, .i32, .i32]) fun _ => .legacyHeaderTruncated
  if fileId ≠ legacyFileId ∨ version ≠ 0 then throw (.unsupportedHeader fileId version)
  return { container := .legacy, dataKind := ← decodeDataKind raw }

/-- The header at the cursor. The tag alone decides between the old container and the later
ones. -/
def Header.decode : Decode Header := fun cursor =>
  if cursor.startsWith tag then decodeTagged (cursor.advance tag.length)
  else decodeLegacy cursor

end LogicCapture.Binary
