import LogicCapture.Csv.Session
import LogicCapture.Text.LineReader

/-!
# Reading an export from pieces

An export arrives in pieces of any size. Each piece completes some lines, which are read at once;
what is left waits for the next piece. A line that cannot be decoded or read stops the piece it was
completed by, and the lines behind it are read with the next piece.
-/

namespace LogicCapture.Csv

open Text (LineReader)

/-- An export under way: the octets not yet read and what has been read. -/
structure Reader where
  lines : LineReader := .start .utf8
  session : Session := {}

namespace Reader

/-- A reader of lines in this encoding, in which a line feed has to be the one octet 10. -/
def linesIn (encoding : Text.NamedCodec) : Except Failure LineReader :=
  match encoding.codec with
  | none => .error (.unknownEncoding encoding.name)
  | some codec =>
    match codec.lineFeed with
    | .error reason => .error (.unencodable reason)
    | .ok octets =>
      if octets = [Text.newline] then .ok (.start codec)
      else .error (.unsuitableEncoding encoding.name)

def create (config : Config) (bus : Bus.Config) (store : Trace.Store) : Except Failure Reader := do
  let lines ← linesIn config.encoding
  return { lines, session := { config, bus := { config := bus }, store } }

def readLine (line : Text.Decoded) : EStateM Failure Reader Unit := fun { lines, session } =>
  match Session.takeDecoded line session with
  | .ok () session => .ok () { lines, session }
  | .error failure session => .error failure { lines, session }

/-- Read all complete lines, up to one that cannot be decoded or read. -/
def readLines (lines : LineReader) (session : Session) : EStateM.Result Failure Reader Unit :=
  match _h : lines.next with
  | (none, lines) => .ok () { lines, session }
  | (some line, lines) =>
    match Session.takeDecoded line session with
    | .ok () session => readLines lines session
    | .error failure session => .error failure { lines, session }
termination_by lines.pending
decreasing_by exact LineReader.pending_next (by assumption)

def push (bytes : List UInt8) : EStateM Failure Reader Unit := fun reader =>
  readLines (reader.lines.push bytes) reader.session

def finish : EStateM Failure Reader Unit := fun reader =>
  match reader.lines.finish with
  | (none, lines) => .ok () { reader with lines }
  | (some line, lines) => readLine line { reader with lines }

end Reader

end LogicCapture.Csv
