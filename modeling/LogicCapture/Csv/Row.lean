import LogicCapture.Bus.Reconstructor
import LogicCapture.Csv.Schema
import LogicCapture.Number.Numeral
import LogicCapture.Text.Codec
import LogicCapture.Time

/-!
# Rows of an export

What one row says: whose row it is, when it happens, what it is called and what it means to a bus
transaction. The arguments it carries are read apart from that, when its track is known.
-/

namespace LogicCapture.Csv

structure Config where
  /-- what comes before the name of an analyzer in the name of its track -/
  trackLead : String := "Saleae CSV: "
  defaultAnalyzer : String := "Unknown"
  defaultType : String := "event"
  encoding : Text.NamedCodec := .utf8

/-- The number of seconds that a cell gives. Only a cell that is not required may be empty. -/
def seconds (text column : String) (required : Bool) : Except Failure Float :=
  if text.isEmpty then
    if required then .error (.timeMissing column) else .ok 0
  else
    match Numeral.readFloat? text with
    | some value => .ok value
    | none => .error (.timeInvalid column text)

/-- What a row says. -/
structure Event where
  analyzer : String
  ts : Int
  dur : Int
  category : Option String
  name : String
  busRow : Bus.Row
  deriving Repr, DecidableEq

/-- The row types that become the category of an interval. -/
def categoryTypes : List String := ["data", "address"]

def orDefault (text fallback : String) : String :=
  if text.isEmpty then fallback else text

/-- The event of a row that is as wide as the header. -/
def Event.ofRow (config : Config) (schema : Schema) (row : List String) :
    Except Failure Event := do
  let analyzer := orDefault (schema.value row .name) config.defaultAnalyzer
  let rowType := orDefault (schema.value row .type) config.defaultType
  let smallType := Text.lowercase rowType
  let start ← seconds (schema.value row .startTime) Role.startTime.label true
  let duration ← seconds (schema.value row .duration) Role.duration.label false
  let ts ← Time.ofSeconds start
  let dur ← Time.ofSeconds duration
  return {
    analyzer, ts, dur
    category := if categoryTypes.contains smallType then some smallType else none
    name := schema.eventName row rowType
    busRow := {
      analyzer, ts, dur
      rowType := smallType
      address := schema.value row .address
      read := schema.value row .read
      data := schema.value row .data } }

end LogicCapture.Csv
