import LogicCapture.Number.FloatText
import LogicCapture.Trace.Rows

/-!
# Table files

The four tables of a trace written out as text, either as comma-separated values or as one JSON
object per line. A table is a list of column names and rows of cells; the two formats differ in how
they write a cell.
-/

namespace LogicCapture.Trace

/-! ## Tables -/

/-- The value in one place of a table. -/
inductive Cell where
  | null
  | whole (value : Int)
  | number (value : Float)
  | flag (value : Bool)
  | text (value : String)
  deriving Repr

structure Table where
  name : String
  columns : List String
  rows : List (List Cell)
  deriving Repr

def Cell.ofText? : Option String → Cell
  | some value => .text value
  | none => .null

def Cell.ofFlag? : Option Bool → Cell
  | some value => .flag value
  | none => .null

/-- The four tables of a trace, in the order in which they are written. -/
def Store.tables (s : Store) : Except Failure (List Table) := do
  let tracks ← s.trackFrame
  let counters ← s.counterFrame
  let slices ← s.sliceFrame
  let args ← s.argFrame
  return [
    { name := "tracks", columns := ["track_id", "kind", "key", "name"]
      rows := tracks.map fun row =>
        [.whole row.id, .text row.kind.label, .text row.key, .text row.name] },
    { name := "counters", columns := ["ts", "value", "track_id"]
      rows := counters.map fun row => [.whole row.ts, .number row.value, .whole row.track] },
    { name := "slices", columns := ["slice_id", "ts", "dur", "track_id", "category", "name"]
      rows := slices.map fun row =>
        [.whole row.id, .whole row.ts, .whole row.dur, .whole row.track, .ofText? row.category,
          .text row.name] },
    { name := "args", columns := ["slice_id", "key", "value_type", "bool_value", "string_value"]
      rows := args.map fun row =>
        [.whole row.slice, .text row.key, .text row.value.typeLabel, .ofFlag? row.value.flag?,
          .ofText? row.value.text?] }]

/-! ## Formats -/

/-- The formats of table files. The bytes of a Parquet file are not modelled. -/
inductive TableFormat where
  | parquet
  | csv
  | jsonl
  deriving Repr, DecidableEq

namespace TableFormat

def all : List TableFormat := [parquet, csv, jsonl]

def label : TableFormat → String
  | parquet => "parquet"
  | csv => "csv"
  | jsonl => "jsonl"

def ofLabel (name : String) : Except Failure TableFormat :=
  match all.find? (·.label == name) with
  | some format => .ok format
  | none => .error (.unknownTableFormat name)

end TableFormat

def flagText (value : Bool) : String :=
  if value then "true" else "false"

namespace CommaSeparated

def doubleQuotes : List Char → List Char
  | [] => []
  | c :: cs => if c = '"' then '"' :: '"' :: doubleQuotes cs else c :: doubleQuotes cs

def needsQuotes (c : Char) : Bool :=
  c == ',' || c == '"' || c == '\n' || c == '\r'

/-- A text, in quotes if it is empty or holds a comma, a quote or the end of a line. -/
def text (value : String) : String :=
  if value.isEmpty || value.toList.any needsQuotes then
    String.ofList ('"' :: (doubleQuotes value.toList ++ ['"']))
  else value

/-- A cell. A missing value is nothing at all, so an empty text has quotes. -/
def cell : Cell → String
  | .null => ""
  | .whole value => toString value
  | .number value => FloatStyle.commaSeparated.write value
  | .flag value => flagText value
  | .text value => text value

def table (t : Table) : String :=
  String.join ((t.columns :: t.rows.map (·.map cell)).map fun line => ",".intercalate line ++ "\n")

end CommaSeparated

namespace JsonLines

/-- A character inside a string. What is not printable ASCII is written by number, in two halves
beyond 16 bits. -/
def char (c : Char) : String :=
  let n := c.toNat
  if c = '"' then "\\\""
  else if c = '\\' then "\\\\"
  else if c = '\n' then "\\n"
  else if c = '\r' then "\\r"
  else if c = '\t' then "\\t"
  else if n = 8 then "\\b"
  else if n = 12 then "\\f"
  else if 0x20 ≤ n && n ≤ 0x7E then String.singleton c
  else if n < 0x10000 then "\\u" ++ hexadecimal 4 n
  else
    "\\u" ++ hexadecimal 4 (0xD800 + (n - 0x10000) / 0x400) ++ "\\u" ++
      hexadecimal 4 (0xDC00 + (n - 0x10000) % 0x400)

def text (value : String) : String :=
  "\"" ++ String.join (value.toList.map char) ++ "\""

def cell : Cell → String
  | .null => "null"
  | .whole value => toString value
  | .number value => FloatStyle.jsonLines.write value
  | .flag value => flagText value
  | .text value => text value

def row (columns : List String) (cells : List Cell) : String :=
  "\x7b" ++ ", ".intercalate ((columns.zip cells).map fun (column, value) =>
    text column ++ ": " ++ cell value) ++ "\x7d"

def table (t : Table) : String :=
  String.join (t.rows.map fun cells => row t.columns cells ++ "\n")

end JsonLines

/-- The text of a table file, if its format is one of text. -/
def Table.content? (t : Table) : TableFormat → Option String
  | .parquet => none
  | .csv => some (CommaSeparated.table t)
  | .jsonl => some (JsonLines.table t)

end LogicCapture.Trace
