import LogicCapture.Csv.Record
import LogicCapture.Text.Blank
import LogicCapture.Text.Lowercase
import LogicCapture.Trace.Store

/-!
# Schema of an export

What the header line says about the columns. Names are compared without the white space around them
and without regard to capitals. Four roles need a column; the last column that names a role gets it.
All other named columns are extra and become arguments.
-/

namespace LogicCapture.Csv

open Trace (Arg ArgValue Store)

/-- The column of each role. -/
structure Places where
  name : Nat
  type : Nat
  startTime : Nat
  duration : Nat
  data : Option Nat
  address : Option Nat
  read : Option Nat
  deriving Repr, DecidableEq

def Places.index? (places : Places) : Role → Option Nat
  | .name => some places.name
  | .type => some places.type
  | .startTime => some places.startTime
  | .duration => some places.duration
  | .data => places.data
  | .address => places.address
  | .read => places.read

/-- The columns of an export, where each role stands, and the handles of the column names once they
are in a string pool. -/
structure Schema where
  columns : List String
  places : Places
  keyHandles : Array Nat := #[]
  deriving Repr, DecidableEq

namespace Schema

/-- The column names that the fields of a header stand for. A byte order mark may come before the
first one. -/
def columnNames : List String → List String
  | [] => []
  | first :: rest => Text.trim (stripMark (Text.trim first)) :: rest.map Text.trim

def rolesOf (columns : List String) : List (Option Role) :=
  columns.map fun column => Role.ofColumnName? (Text.lowercase column)

def lastIndex? (roles : List (Option Role)) (role : Role) : Option Nat :=
  ((roles.zipIdx.filter (·.1 == some role)).getLast?).map (·.2)

/-- The schema of a header, or the failure that names all required roles without a column. -/
def ofFields (fields : List String) : Except Failure Schema :=
  if fields.isEmpty then .error .headerEmpty
  else
    let columns := columnNames fields
    let place := lastIndex? (rolesOf columns)
    match place .name, place .type, place .startTime, place .duration with
    | some name, some type, some startTime, some duration =>
      let places : Places :=
        { name, type, startTime, duration
          data := place .data, address := place .address, read := place .read }
      .ok { columns, places }
    | _, _, _, _ => .error (.columnsMissing (Role.required.filter fun role => (place role).isNone))

/-- Handles for texts, each of which enters the store in turn. -/
def internAll (store : Store) : List String → List Nat × Store
  | [] => ([], store)
  | text :: texts =>
    let (handle, store) := store.intern text
    let (handles, store) := internAll store texts
    (handle :: handles, store)

def intern (schema : Schema) (store : Store) : Schema × Store :=
  let (keyHandles, store) := internAll store schema.columns
  ({ schema with keyHandles := keyHandles.toArray }, store)

def keyHandle? (schema : Schema) (index : Nat) : Option Nat :=
  schema.keyHandles[index]?

/-- The value of a role in a row without white space around it; nothing where there is no such
cell. -/
def value (schema : Schema) (row : List String) (role : Role) : String :=
  match schema.places.index? role with
  | some index => Text.trim (row[index]?.getD "")
  | none => ""

/-- The row with empty cells added up to the width of the header. -/
def pad (schema : Schema) (row : List String) : List String :=
  row ++ List.replicate (schema.columns.length - row.length) ""

/-- The columns that have a name and are not the column of a required role, with their places. -/
def extraColumns (schema : Schema) : List (String × Nat) :=
  let core := Role.required.filterMap schema.places.index?
  schema.columns.zipIdx.filter fun (column, index) => !core.contains index && !column.isEmpty

/-- A text as an argument value: the words for truth values are those, all else stays text. -/
def argValue (text : String) : ArgValue :=
  let small := Text.lowercase text
  if small == "true" then .flag true
  else if small == "false" then .flag false
  else .text text

def arg? (schema : Schema) (index : Nat) (column cell : String) : Option Arg :=
  let text := Text.trim cell
  if text.isEmpty then none
  else some { key := column, value := argValue text, keyHandle := schema.keyHandle? index }

/-- The arguments of a row: one for each extra column whose cell is not blank. -/
def args (schema : Schema) (row : List String) : Except Failure (List Arg) := do
  let cells := row.toArray
  let args ← schema.extraColumns.mapM fun (column, index) =>
    match cells[index]? with
    | none => .error .indexOutOfRange
    | some cell => .ok (schema.arg? index column cell)
  return args.filterMap id

/-- What a row is called: its data, else its address, else its type. -/
def eventName (schema : Schema) (row : List String) (rowType : String) : String :=
  let data := schema.value row .data
  let address := schema.value row .address
  if !data.isEmpty then data else if !address.isEmpty then address else rowType

end Schema

end LogicCapture.Csv
