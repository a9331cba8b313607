import LogicCapture.Command.Run

/-!
# The program

The command on a real disk: run, print the lines, and end as the run ended. A Parquet file is made
without content.
-/

namespace LogicCapture

open Files (Disk Entry Path)

/-- What a path leads to. What is there and cannot be read as a file is taken for a directory. -/
def lookAt (path : Path) : IO Entry := do
  try
    return .file (← IO.FS.readBinFile path.render).toList
  catch
    | .noFileOrDirectory .. => return .missing
    | .invalidArgument .. => return .refused
    | _ => return .directory

/-- The failure that a trouble with a path stands for. -/
def failureOf (path : Path) : IO.Error → Failure
  | .noFileOrDirectory .. => .directoryMissing path.render
  | .alreadyExists .. => .fileExists
  | .inappropriateType .. => .notDirectory
  | _ => .pathTooLong

def attempt (path : Path) (action : IO Unit) : IO (Except Failure Unit) := do
  try
    action
    return .ok ()
  catch trouble =>
    return .error (failureOf path trouble)

instance : Disk IO where
  entry := lookAt
  -- a piece has to have an address for each of its octets
  memory := return (· < 0x800000000000)
  makeDirectory path := attempt path (IO.FS.createDirAll path.render)
  writeFile path content := attempt path (IO.FS.writeFile path.render (content.getD ""))
  home := do return .ofString ((← IO.getEnv "HOME").getD "/")

end LogicCapture

open LogicCapture in
def main (words : List String) : IO UInt32 := do
  let outcome : Command.Outcome ← Command.run words
  outcome.lines.forM IO.println
  match outcome.ending with
  | .exit code => return code.toUInt32
  | .broken failure =>
    IO.eprintln failure.message
    return 1
