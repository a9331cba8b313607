import LogicCapture.Text.Utf8

/-!
# Text encodings

Three encodings that write a line feed as the single octet 10, with a replacement for each fault in
what they read.
-/

namespace LogicCapture.Text

/-- An encoding that writes a line feed as the one octet 10. -/
inductive Encoding where
  | utf8
  | latin1
  | ascii
  deriving Repr, DecidableEq

namespace Encoding

def scan : Encoding → List UInt8 → List (Option Char)
  | .utf8, bytes => Utf8.scan bytes
  | .latin1, bytes => bytes.map fun b => some (Char.ofNat b.toNat)
  | .ascii, bytes => bytes.map fun b => if b < 0x80 then some (Char.ofNat b.toNat) else none

/-- The text of a sequence of octets, with the replacement character for each fault. -/
def decode (encoding : Encoding) (bytes : List UInt8) : String :=
  String.ofList ((encoding.scan bytes).map (·.getD '\uFFFD'))

def decodeValid (encoding : Encoding) (bytes : List UInt8) : String :=
  String.ofList ((encoding.scan bytes).filterMap id)

end Encoding

end LogicCapture.Text
