/-!
# File paths

A path as its root and the names below it. Doubled slashes and steps to the same place carry no
meaning and are dropped; steps to the place above are kept, since what they mean depends on the
files.
-/

namespace LogicCapture.Files

/-- A path: the slashes it starts from, and names. -/
structure Path where
  root : String := ""
  names : List String
  deriving Repr, DecidableEq

namespace Path

/-- The root of a text. Exactly two slashes at the start are a root of their own. -/
def rootOf : List Char → String
  | '/' :: '/' :: '/' :: _ => "/"
  | '/' :: '/' :: _ => "//"
  | '/' :: _ => "/"
  | _ => ""

def ofString (text : String) : Path where
  root := rootOf text.toList
  names := ((text.toList.splitOn '/').map String.ofList).filter fun name =>
    name ≠ "" && name ≠ "."

def render (path : Path) : String :=
  if path.root.isEmpty && path.names.isEmpty then "."
  else path.root ++ "/".intercalate path.names

def name (path : Path) : String :=
  path.names.getLast?.getD ""

def holdsNul (path : Path) : Bool :=
  path.names.any fun name => name.toList.contains '\x00'

def size (path : Path) : Nat :=
  path.render.utf8ByteSize

/-- The path with a tilde as its first name read as the home directory. -/
def expand (path home : Path) : Path :=
  match path.root.isEmpty, path.names with
  | true, "~" :: names => { home with names := home.names ++ names }
  | _, _ => path

def child (path : Path) (name : String) : Path :=
  { path with names := path.names ++ [name] }

def parent (path : Path) : Path :=
  { path with names := path.names.dropLast }

/-- The place that a path names when it reads as a URI of a file: after `file:` comes the way from
the root. -/
def ofFileUri? (path : Path) : Option Path :=
  match path.render.toList with
  | 'f' :: 'i' :: 'l' :: 'e' :: ':' :: way =>
    some { root := "/", names := (ofString (String.ofList way)).names }
  | _ => none

/-- What follows the last point of a name, the point included. A point at either end of the name
does not count. -/
def suffix (path : Path) : String :=
  let reversed := path.name.toList.reverse
  let ending := reversed.takeWhile (· ≠ '.')
  match reversed.dropWhile (· ≠ '.') with
  | [] => ""
  | point :: before =>
    if ending.isEmpty || before.isEmpty then "" else String.ofList (point :: ending.reverse)

end Path

end LogicCapture.Files
