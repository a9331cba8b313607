import LogicCapture.Command.Options
import LogicCapture.Trace.Summary

/-!
# The command

One run of the command: import a file, say what came of it, summarise it if asked, and write its
tables if asked. The run works on any disk; it yields the printed lines, the files written, and how
it ended. A capture that cannot be decoded or is not there ends the run with a line about it; any
other failure breaks it off.
-/

namespace LogicCapture.Command

open Files (Disk Path)
open Trace (Store Table TableFormat)

variable {m : Type → Type} [Monad m] [Disk m]

/-! ## Writing tables -/

/-- A file that is written. A Parquet file has no text. -/
structure WrittenFile where
  table : String
  path : Path
  content : Option String
  deriving Repr, DecidableEq

def WrittenFile.line (file : WrittenFile) : String :=
  "  wrote " ++ file.table ++ ": " ++ file.path.render

/-- What writing tables leaves: the files written, and the failure that stopped it. -/
structure Written where
  files : List WrittenFile := []
  failure : Option Failure := none

/-- Write a file at a place that a URI names, and make the directories on the way to it. Whatever
stands in the way, the place is out of reach. -/
def writeAtPlace (place : Path) (content : Option String) : m (Except Failure Unit) := do
  match ← Disk.makeDirectory place.parent with
  | .error _ => return .error .placeOutOfReach
  | .ok () => return (← Disk.writeFile place content).mapError fun _ => .placeOutOfReach

/-- Write a file of this format. JSON lines go to the path as it stands. For the other formats a
tilde in front means the home directory, and a path that is no directory may be a URI. -/
def writeAs (format : TableFormat) (path : Path) (content : Option String) :
    m (Except Failure Unit) := do
  match format with
  | .jsonl => Disk.writeFile path content
  | _ =>
    let path := path.expand (← Disk.home)
    match ← Disk.entry path, path.ofFileUri? with
    | .directory, _ => return .error .isDirectory
    | _, some place => writeAtPlace place content
    | _, none => Disk.writeFile path content

/-- Write tables into a directory, up to one that cannot be written. -/
def writeFiles (dir : Path) (format : TableFormat) : List Table → m Written
  | [] => return {}
  | table :: tables => do
    let path := dir.child (table.name ++ "." ++ format.label)
    let content := table.content? format
    match ← writeAs format path content with
    | .error failure => return { failure := some failure }
    | .ok () =>
      let written ← writeFiles dir format tables
      return { written with files := { table := table.name, path, content } :: written.files }

/-- Write the tables of a trace into a directory, which is made first if it is not there. -/
def writeTables (store : Store) (dir : Path) (format : String) : m Written := do
  match TableFormat.ofLabel format with
  | .error failure => return { failure := some failure }
  | .ok format =>
    match ← Disk.makeDirectory dir, store.tables with
    | .error failure, _ => return { failure := some failure }
    | _, .error failure => return { failure := some failure }
    | .ok (), .ok tables => writeFiles dir format tables

/-! ## The run -/

/-- How a run ends: with an exit code, or broken off by a failure. -/
inductive Ending where
  | exit (code : Nat)
  | broken (failure : Failure)
  deriving Repr

structure Outcome where
  ending : Ending
  lines : List String := []
  files : List WrittenFile := []

/-- A failure that is about the input and is reported in a line. -/
def isReported (failure : Failure) : Bool :=
  match failure.kind with
  | .malformedCapture | .fileMissing => true
  | _ => false

def importedLine (input : String) (store : Store) : String :=
  "Imported " ++ input ++ ": " ++ toString store.tracks.size ++ " tracks, " ++
    grouped store.counters.size ++ " counters, " ++ grouped store.slices.size ++ " slices"

/-- Write the tables if asked, after the lines printed so far. -/
def writeAsked (options : Options) (store : Store) (lines : List String) : m Outcome := do
  match options.outputDir with
  | none | some "" => return { ending := .exit 0, lines }
  | some dir =>
    let written ← writeTables store (.ofString dir) options.tableFormat
    match written.failure with
    | some failure => return { ending := .broken failure, lines, files := written.files }
    | none => return {
        ending := .exit 0
        lines := lines ++ written.files.map WrittenFile.line
        files := written.files }

def reportStore (options : Options) (store : Store) : m Outcome := do
  let imported := importedLine options.input store
  if options.summary then
    match store.summaryLines with
    | .error failure => return { ending := .broken failure, lines := [imported] }
    | .ok lines => writeAsked options store (imported :: lines)
  else writeAsked options store [imported]

/-- Import the input of the options in pieces of this size and report on it. -/
def importInput (options : Options) (chunkSize : Int) : m Outcome := do
  let config : Import.Config := { request := options.request, pieceSize := chunkSize }
  let path := Path.ofString options.input
  let result := Import.importFile (← Disk.memory) config path (← Disk.entry path) {}
  match result.failure with
  | none => reportStore options result.store
  | some failure =>
    if isReported failure then
      return { ending := .exit 1, lines := ["Error: " ++ failure.message] }
    else return { ending := .broken failure }

def runOptions (options : Options) : m Outcome :=
  match options.chunkSize with
  | none => return { ending := .broken .chunkSizeMissing }
  | some chunkSize =>
    if chunkSize ≤ 0 then
      return { ending := .exit 1, lines := ["Error: --chunk-size must be positive"] }
    else importInput options chunkSize

def helpLines : List String := [
  "usage: saleae-import [-h] [--format \x7bauto,binary,csv\x7d] [--output-dir OUTPUT_DIR]",
  "                     [--table-format \x7bparquet,csv,jsonl\x7d] [--summary]",
  "                     [--chunk-size CHUNK_SIZE] [--verbose]",
  "                     input"]

def run (words : List String) : m Outcome :=
  match parse words with
  | .run options => runOptions options
  | .help => return { ending := .exit 0, lines := helpLines }
  | .usage => return { ending := .exit 2 }

end LogicCapture.Command
