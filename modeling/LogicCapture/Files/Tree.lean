import LogicCapture.Files.Disk

/-!
# Trees of files

A disk as a value: what stands at each place, where the work is done, where the home directory is,
and how much can be read at once. Paths are followed name by name through directories that are
there, with the limits that a system puts on names and paths.
-/

namespace LogicCapture.Files

inductive Node where
  | directory
  | file (content : List UInt8)
  deriving Repr, DecidableEq

/-- A place, by the names that lead to it from the root, the last one first. -/
abbrev Place := List String

/-- A tree of files. The root is always there. -/
structure Tree where
  nodes : List (Place × Node)
  working : Place
  home : Path
  /-- the most octets that are read at once -/
  longestPiece : Nat
  deriving Repr, DecidableEq

inductive Blocked where
  | missing
  | notDirectory
  | tooLong
  deriving Repr, DecidableEq

def longestName : Nat := 255

def longestPath : Nat := 4095

/-- The most directories that are made for one path. -/
def mostLevels : Nat := 985

namespace Tree

/-! ## Following paths -/

def node? (tree : Tree) : Place → Option Node
  | [] => some .directory
  | place => tree.nodes.lookup place

def put (tree : Tree) (place : Place) (node : Node) : Tree :=
  { tree with nodes := (place, node) :: tree.nodes.filter (·.1 != place) }

/-- The place that a name leads to. Only from a directory does a name lead on. -/
def step (tree : Tree) (place : Place) (name : String) : Except Blocked Place :=
  match tree.node? place with
  | none => .error .missing
  | some (.file _) => .error .notDirectory
  | some .directory =>
    if name == ".." then .ok place.tail
    else if longestName < name.utf8ByteSize then .error .tooLong
    else .ok (name :: place)

def start (tree : Tree) (path : Path) : Place :=
  if path.root.isEmpty then tree.working else []

/-- The place of a path. All on the way to it are directories; nothing has to stand there. -/
def locate (tree : Tree) (path : Path) : Except Blocked Place :=
  if longestPath < path.size then .error .tooLong
  else path.names.foldlM tree.step (tree.start path)

def entry (tree : Tree) (path : Path) : Entry :=
  if path.holdsNul then .missing
  else
    match tree.locate path with
    | .error .tooLong => .refused
    | .error _ => .missing
    | .ok place =>
      match tree.node? place with
      | none => .missing
      | some .directory => .directory
      | some (.file content) => .file content

/-! ## Making directories and files -/

/-- Make the directories along names that are not there, from a place that is one. A file is in the
way; one that is met before anything was made and is not the last is no directory to work in.
`making` tells that something was made. -/
def makeAlong (tree : Tree) (making : Bool) (place : Place) : List String → Except Failure Tree
  | [] => .ok tree
  | name :: names =>
    match tree.step place name with
    | .error .tooLong => .error .pathTooLong
    | .error _ => .error .notDirectory
    | .ok next =>
      match tree.node? next with
      | some .directory => tree.makeAlong making next names
      | some (.file _) => .error (if making || names.isEmpty then .fileExists else .notDirectory)
      | none =>
        if !making && mostLevels ≤ names.length then .error .pathTooDeep
        else (tree.put next .directory).makeAlong true next names

/-- Make the directory at a path and those on the way to it, as far as they are not there. -/
def makeDirectory (tree : Tree) (path : Path) : Except Failure Tree :=
  if path.holdsNul then .error .pathHoldsNul
  else if longestPath < path.size then .error .pathTooLong
  else tree.makeAlong false (tree.start path) path.names

/-- Write a file at a path, in the place of one that is there. -/
def writeFile (tree : Tree) (path : Path) (content : List UInt8) : Except Failure Tree :=
  match tree.locate path with
  | .error .missing => .error (.directoryMissing path.render)
  | .error .notDirectory => .error .notDirectory
  | .error .tooLong => .error .pathTooLong
  | .ok place =>
    match tree.node? place with
    | some .directory => .error .isDirectory
    | _ => .ok (tree.put place (.file content))

/-- The files below the working directory, by the names that lead to them from there. -/
def workingFiles (tree : Tree) : List (List String × List UInt8) :=
  tree.nodes.filterMap fun (place, node) =>
    match node with
    | .directory => none
    | .file content =>
      if tree.working.isSuffixOf place then
        some ((place.take (place.length - tree.working.length)).reverse, content)
      else none

/-- A change of the tree, which leaves it as it is when it fails. -/
def change (step : Tree → Except Failure Tree) : StateM Tree (Except Failure Unit) := fun tree =>
  match step tree with
  | .ok tree => (.ok (), tree)
  | .error failure => (.error failure, tree)

end Tree

instance : Disk (StateM Tree) where
  entry path := fun tree => (tree.entry path, tree)
  memory := fun tree => ((decide <| · ≤ tree.longestPiece), tree)
  makeDirectory path := Tree.change fun tree => tree.makeDirectory path
  writeFile path content := Tree.change fun tree =>
    tree.writeFile path ((content.getD "").toUTF8.toList)
  home := fun tree => (tree.home, tree)

end LogicCapture.Files
