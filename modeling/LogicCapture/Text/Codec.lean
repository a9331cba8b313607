import LogicCapture.Text.Encoding

/-!
# Codecs

Octets are read as text by a codec, which whoever runs the program has under some name. All that is
known of a codec is what it does when it is asked: it may refuse to write a character, and it may
refuse to read octets even where it should put replacements for faults. The codecs of the encodings
known here refuse nothing.
-/

namespace LogicCapture.Text

def newline : UInt8 := 10

/-- A text, or the reason why some octets have been refused. -/
abbrev Decoded := Except String String

/-- A codec, by the octets that it writes for a line feed and by what it makes of octets. -/
structure Codec where
  lineFeed : Except String (List UInt8)
  decode : List UInt8 → Decoded

def Encoding.codec (encoding : Encoding) : Codec where
  lineFeed := .ok [newline]
  decode bytes := .ok (encoding.decode bytes)

def Codec.utf8 : Codec := Encoding.utf8.codec

/-- An encoding as it is asked for: its name, and the codec that is found under this name. -/
structure NamedCodec where
  name : String
  codec : Option Codec

def NamedCodec.utf8 : NamedCodec where
  name := "utf-8"
  codec := some .utf8

end LogicCapture.Text
