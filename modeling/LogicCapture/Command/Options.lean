import LogicCapture.Import
import LogicCapture.Number.Numeral
import LogicCapture.Trace.TableFile

/-!
# Command line options

The words of a command line are sorted into options and values first, and then taken in order. An
option may be shortened as long as it stays unambiguous, and may have its value attached with an
equals sign. After a lone double hyphen every word is a value, and so is a word that looks like a
negative number or has a space in it. A lone double hyphen is never a value itself: attached to an
option it leaves the option without one.
-/

namespace LogicCapture.Command

open Import (Request)
open Trace (TableFormat)

/-! ## Sorting the words -/

/-- The options. -/
inductive Switch where
  | help
  | format
  | outputDir
  | tableFormat
  | summary
  | chunkSize
  | verbose
  deriving Repr, DecidableEq

def spellings : List (String × Switch) := [
  ("--help", .help), ("--format", .format), ("--output-dir", .outputDir),
  ("--table-format", .tableFormat), ("--summary", .summary), ("--chunk-size", .chunkSize),
  ("--verbose", .verbose)]

/-- What a word of the command line is. -/
inductive Word where
  | value (text : String)
  | separator
  | option (switch : Switch) (attached : Option String)
  | unknown
  deriving Repr, DecidableEq

/-- A hyphen and digits, with at most one point, which has digits after it. A line feed at the end
does not count. -/
def looksNegative (cs : List Char) : Bool :=
  let isDigit := fun c => (Text.digitValue? c).isSome
  match if cs.getLast? = some '\n' then cs.dropLast else cs with
  | '-' :: cs =>
    match cs.dropWhile isDigit with
    | [] => !cs.isEmpty
    | '.' :: rest => !rest.isEmpty && rest.all isDigit
    | _ => false
  | _ => false

/-- The part before the first equals sign, and the part after it if there is one. -/
def splitAttached (text : String) : String × Option String :=
  let cs := text.toList
  match cs.dropWhile (· ≠ '=') with
  | [] => (text, none)
  | _ :: rest => (String.ofList (cs.takeWhile (· ≠ '=')), some (String.ofList rest))

/-- A word with one hyphen. The only short option is the one for help. It may be repeated in one
word, also behind an equals sign, and anything else attached to it is more than it takes. -/
def classifyShort (text : String) : Word :=
  match text.toList with
  | '-' :: 'h' :: rest =>
    let attached := if rest.length > 1 && rest.head? == some '=' then rest.tail else rest
    .option .help (if attached.all (· == 'h') then none else some (String.ofList attached))
  | cs => if looksNegative cs || cs.contains ' ' then .value text else .unknown

/-- A word with two hyphens and more; nothing if it is short for several options. -/
def classifyLong? (text : String) : Option Word :=
  let (spelling, attached) := splitAttached text
  match spellings.lookup text, spellings.lookup spelling with
  | some switch, _ => some (.option switch none)
  | none, some switch => some (.option switch attached)
  | none, none =>
    match spellings.filter fun entry => spelling.toList.isPrefixOf entry.1.toList with
    | [] => some (if text.toList.contains ' ' then .value text else .unknown)
    | [(_, switch)] => some (.option switch attached)
    | _ => none

def classify? (text : String) : Option Word :=
  match text.toList with
  | '-' :: '-' :: _ => classifyLong? text
  | '-' :: _ :: _ => some (classifyShort text)
  | _ => some (.value text)

/-- What the words of a command line are; nothing if one of them is ambiguous. -/
def classifyAll? : List String → Option (List Word)
  | [] => some []
  | text :: rest =>
    if text == "--" then some (.separator :: rest.map .value)
    else do
      let word ← classify? text
      return word :: (← classifyAll? rest)

/-! ## Taking the words in order -/

/-- What the options say. The table format is looked up when tables are written, and the chunk size
may be missing. Being verbose is a matter of diagnostics and changes no result. -/
structure Settings where
  request : Request := .detect
  outputDir : Option String := none
  tableFormat : String := TableFormat.parquet.label
  summary : Bool := false
  chunkSize : Option Int := some 1048576
  verbose : Bool := false
  deriving Repr, DecidableEq

structure Options extends Settings where
  input : String
  deriving Repr, DecidableEq

/-- A command line under way: the input may still be missing, and words may have been left over. -/
structure Draft where
  input : Option String := none
  leftOver : Bool := false
  settings : Settings := {}
  deriving Repr, DecidableEq

inductive Parsed where
  | run (options : Options)
  | help
  | usage
  deriving Repr, DecidableEq

def formatNames : List String := ["auto", "binary", "csv"]

def setValue (settings : Settings) (switch : Switch) (text : String) : Option Settings :=
  match switch with
  | .format =>
    if formatNames.contains text then some { settings with request := .ofLabel text } else none
  | .outputDir => some { settings with outputDir := some text }
  | .tableFormat =>
    match TableFormat.ofLabel text with
    | .ok format => some { settings with tableFormat := format.label }
    | .error _ => none
  | .chunkSize => (Numeral.readInt? text).map fun size => { settings with chunkSize := some size }
  | _ => none

/-- How a missing value shows where a name is expected. It names nothing. -/
def noValue : String := "[]"

/-- Leave an option that takes a value without one. -/
def setNothing (settings : Settings) (switch : Switch) : Option Settings :=
  match switch with
  | .format => some { settings with request := .format noValue }
  | .outputDir => some { settings with outputDir := none }
  | .tableFormat => some { settings with tableFormat := noValue }
  | .chunkSize => some { settings with chunkSize := none }
  | _ => none

def setAttached (settings : Settings) (switch : Switch) (text : String) : Option Settings :=
  if text == "--" then setNothing settings switch else setValue settings switch text

def setFlag (settings : Settings) (switch : Switch) : Option Settings :=
  match switch with
  | .summary => some { settings with summary := true }
  | .verbose => some { settings with verbose := true }
  | _ => none

def Draft.finish (draft : Draft) : Parsed :=
  match draft.input, draft.leftOver with
  | some input, false => .run { draft.settings with input }
  | _, _ => .usage

/-- Take the words in order. The first value that no option takes is the input; a double hyphen
directly before or behind it belongs to it, and anything else is left over. -/
def take (draft : Draft) : List Word → Parsed
  | [] => draft.finish
  | .unknown :: rest => take { draft with leftOver := true } rest
  | .option .help none :: _ => .help
  | .option switch (some text) :: rest =>
    match setAttached draft.settings switch text with
    | some settings => take { draft with settings } rest
    | none => .usage
  | .option switch none :: rest =>
    match setFlag draft.settings switch, rest with
    | some settings, rest => take { draft with settings } rest
    | none, .value text :: rest =>
      match setValue draft.settings switch text with
      | some settings => take { draft with settings } rest
      | none => .usage
    | none, _ => .usage
  | .value text :: rest =>
    if draft.input.isSome then take { draft with leftOver := true } rest
    else
      match rest with
      | .separator :: rest => take { draft with input := some text } rest
      | rest => take { draft with input := some text } rest
  | .separator :: rest =>
    match draft.input, rest with
    | none, .value text :: rest => take { draft with input := some text } rest
    | _, rest => take { draft with leftOver := true } rest

def parse (words : List String) : Parsed :=
  match classifyAll? words with
  | some words => take {} words
  | none => .usage

end LogicCapture.Command
