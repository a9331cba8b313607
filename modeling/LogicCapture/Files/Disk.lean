import LogicCapture.Failure
import LogicCapture.Files.Path

/-!
# What a program does with the disk

The questions and requests that a run has for the disk: what a path leads to, for pieces of which
sizes there is memory when a file is read, that the directory at a path be there, that a file be
written, and where the home directory is.
-/

namespace LogicCapture.Files

/-- What a path leads to. -/
inductive Entry where
  | missing
  | directory
  | file (content : List UInt8)
  /-- the path is too long to be followed -/
  | refused
  deriving Repr, DecidableEq

/-- A disk, by what can be asked of it. A Parquet file is written without content. -/
class Disk (m : Type → Type) where
  entry : Path → m Entry
  memory : m (Nat → Bool)
  makeDirectory : Path → m (Except Failure Unit)
  writeFile : Path → Option String → m (Except Failure Unit)
  home : m Path

end LogicCapture.Files
