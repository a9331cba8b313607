/-!
# Column roles

The columns of an analyzer export that mean something to the import. Every other named column is
carried along as an argument.
-/

namespace LogicCapture.Csv

/-- What a recognised column holds. -/
inductive Role where
  | name
  | type
  | startTime
  | duration
  | data
  | address
  | read
  deriving Repr, DecidableEq

namespace Role

/-- The name of the role in headers and messages. -/
def label : Role → String
  | name => "name"
  | type => "type"
  | startTime => "start_time"
  | duration => "duration"
  | data => "data"
  | address => "address"
  | read => "read"

def all : List Role :=
  [name, type, startTime, duration, data, address, read]

def required : List Role :=
  [name, type, startTime, duration]

def ofColumnName? (column : String) : Option Role :=
  if column == "start time" then some startTime else all.find? (·.label == column)

end Role

end LogicCapture.Csv
