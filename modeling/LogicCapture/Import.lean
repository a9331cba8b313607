import LogicCapture.Binary.Reader
import LogicCapture.Csv.Reader
import LogicCapture.Detect
import LogicCapture.Files.Disk

/-!
# Importing an export

An export is recognised by its first octets, given to the reader of its format in pieces, and
finished. Whatever was stored before a failure stays stored. How the pieces are cut has no bearing
on the result.
-/

namespace LogicCapture.Import

open Files (Entry Path)
open Trace (Store)

inductive Request where
  | detect
  | format (name : String)
  deriving Repr, DecidableEq

def Request.ofLabel (name : String) : Request :=
  if name == "auto" then .detect else .format name

structure Config where
  request : Request := .detect
  pieceSize : Int := 1048576
  binary : Binary.Config := {}
  csv : Csv.Config := {}

/-- The number of octets by which a format is recognised. -/
def headSize : Nat := 512

/-! ## Readers -/

inductive Reader where
  | binary (reader : Binary.Reader)
  | csv (reader : Csv.Reader)

namespace Reader

def create (config : Config) (store : Store) : CaptureFormat → Except Failure Reader
  | .binary => .ok (.binary { config := config.binary, store })
  | .csv => .csv <$> Csv.Reader.create config.csv {} store

def store : Reader → Store
  | binary reader => reader.store
  | csv reader => reader.session.store

def either (onBinary : EStateM Failure Binary.Reader Unit)
    (onCsv : EStateM Failure Csv.Reader Unit) : EStateM Failure Reader Unit
  | binary reader =>
    match onBinary reader with
    | .ok () reader => .ok () (binary reader)
    | .error failure reader => .error failure (binary reader)
  | csv reader =>
    match onCsv reader with
    | .ok () reader => .ok () (csv reader)
    | .error failure reader => .error failure (csv reader)

def push (bytes : List UInt8) : EStateM Failure Reader Unit :=
  either (Binary.Reader.push bytes) (Csv.Reader.push bytes)

def finish : EStateM Failure Reader Unit :=
  either Binary.Reader.finish Csv.Reader.finish

end Reader

/-! ## Running a reader -/

/-- The octets in pieces of this size, the last one possibly shorter. -/
def cut (size : Nat) (bytes : List UInt8) : List (List UInt8) :=
  if _h : size = 0 ∨ bytes = [] then []
  else bytes.take size :: cut size (bytes.drop size)
termination_by bytes.length
decreasing_by
  have : bytes.length ≠ 0 := fun h => _h (.inr (List.eq_nil_of_length_eq_zero h))
  simp only [List.length_drop]
  omega

theorem flatten_cut {size : Nat} (hsize : size ≠ 0) (bytes : List UInt8) :
    (cut size bytes).flatten = bytes := by
  fun_induction cut size bytes with
  | case1 bytes h => simp_all
  | case2 bytes h ih => simp [ih]

def resolve (config : Config) (head : List UInt8) (source : Option String) :
    Except Failure CaptureFormat :=
  match config.request with
  | .format name => CaptureFormat.ofLabel name
  | .detect =>
    match Detect.guess? head source with
    | some format => .ok format
    | none => .error (.unrecognised (match source with
      | some name => if name.isEmpty then "input" else name
      | none => "input"))

structure Result where
  failure : Option Failure
  store : Store

def Result.ofRun (run : EStateM Failure Reader Unit) (reader : Reader) : Result :=
  match run reader with
  | .ok () reader => { failure := none, store := reader.store }
  | .error failure reader => { failure := some failure, store := reader.store }

def openReader (config : Config) (source : Option String) (store : Store) (data : List UInt8) :
    Except Failure Reader := do
  Reader.create config store (← resolve config (data.take headSize) source)

/-- Import an export with the reader it calls for. `feed` gives the pieces to the reader. -/
def importWith (config : Config) (source : Option String) (store : Store) (data : List UInt8)
    (feed : EStateM Failure Reader Unit) : Result :=
  match openReader config source store data with
  | .error failure => { failure := some failure, store }
  | .ok reader => .ofRun (do feed; Reader.finish) reader

/-! ## Octets and files -/

/-- Give octets to a reader in pieces of the configured size. A negative size gives nothing. -/
def feedBytes (config : Config) (data : List UInt8) : EStateM Failure Reader Unit :=
  if config.pieceSize = 0 then throw .pieceSizeZero
  else (cut config.pieceSize.toNat data).forM Reader.push

/-- Import octets, which come from a source with this name if it has one. -/
def importBytes (config : Config) (source : Option String) (store : Store) (data : List UInt8) :
    Result :=
  importWith config source store data (feedBytes config data)

/-- The failure of a size for the pieces of a file, if it is no such size. A size is a signed 64-bit
word that leaves room for the bookkeeping of a piece, minus one or more, and there has to be memory
for a piece of this size. -/
def sizeFailure? (memory : Nat → Bool) (size : Int) : Option Failure :=
  if !fitsWord64 size then some .pieceSizeTooLarge
  else if size < -1 then some .pieceSizeNegative
  else if 0x8000000000000000 - 33 ≤ size then some .pieceTooLong
  else if 0 < size && !memory size.toNat then some .outOfMemory
  else none

/-- Give the content of a file to a reader: first the octets by which it was recognised, then pieces
of the configured size. A size of minus one stands for all the rest, and a size of zero ends the
file at once. -/
def feedFile (memory : Nat → Bool) (config : Config) (data : List UInt8) :
    EStateM Failure Reader Unit := do
  unless data.isEmpty do Reader.push (data.take headSize)
  let rest := data.drop headSize
  match sizeFailure? memory config.pieceSize with
  | some failure => throw failure
  | none =>
    if config.pieceSize = -1 then
      unless rest.isEmpty do Reader.push rest
    else (cut config.pieceSize.toNat rest).forM Reader.push

/-- Import the file at a path that leads to this entry, where there is memory for pieces of some
sizes. -/
def importFile (memory : Nat → Bool) (config : Config) (path : Path) (entry : Entry)
    (store : Store) : Result :=
  match entry with
  | .missing => { failure := some (.inputMissing path.render), store }
  | .directory => { failure := some .isDirectory, store }
  | .refused => { failure := some .pathTooLong, store }
  | .file data => importWith config (some path.name) store data (feedFile memory config data)

end LogicCapture.Import
