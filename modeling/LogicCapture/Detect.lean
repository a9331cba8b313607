import LogicCapture.Binary.Header
import LogicCapture.Files.Path
import LogicCapture.Text.Blank
import LogicCapture.Text.Encoding
import LogicCapture.Text.LineReader
import LogicCapture.Text.Lowercase
import LogicCapture.Text.Printable

/-!
# Telling captures apart

Whether an export is a binary capture or an analyzer export in text is decided by its first octets:
by the tag or the file identifier of the containers, else by a first line that reads like a list of
column names. The name of the file is the last resort.
-/

namespace LogicCapture

inductive CaptureFormat where
  | binary
  | csv
  deriving Repr, DecidableEq

namespace CaptureFormat

def label : CaptureFormat → String
  | binary => "binary"
  | csv => "csv"

def ofLabel (name : String) : Except Failure CaptureFormat :=
  match [binary, csv].find? (·.label == name) with
  | some format => .ok format
  | none => .error (.unknownFormat name)

end CaptureFormat

namespace Detect

/-- A line as it is looked at: without carriage returns at its end, and without byte order marks at
its start. -/
def lineText (bytes : List UInt8) : String :=
  let cs := (Text.Encoding.utf8.decodeValid bytes).toList
  let cs := (cs.reverse.dropWhile (· == '\r')).reverse
  String.ofList (cs.dropWhile (· == '\uFEFF'))

def firstLine? (head : List UInt8) : Option String :=
  ((head.splitOn Text.newline).map lineText).find? fun line => !Text.isBlank line

/-- The octets begin like a binary capture, with the tag or the file identifier. -/
def startsBinary (head : List UInt8) : Bool :=
  Binary.tag.isPrefixOf head || [0x00, 0x2F, 0x00, 0x00].isPrefixOf head

/-- The first line reads like a list of column names. -/
def startsCsv (head : List UInt8) : Bool :=
  match firstLine? head with
  | some line => line.toList.contains ',' && Text.isPrintable line
  | none => false

def ofFileName? (name : String) : Option CaptureFormat :=
  let ending := Text.lowercase (Files.Path.ofString name).suffix
  if ending == ".bin" then some .binary
  else if ending == ".csv" then some .csv
  else none

/-- The format of an export with these first octets and, if known, this name. -/
def guess? (head : List UInt8) (fileName : Option String) : Option CaptureFormat :=
  if startsBinary head then some .binary
  else if startsCsv head then some .csv
  else fileName.bind ofFileName?

end Detect

end LogicCapture
