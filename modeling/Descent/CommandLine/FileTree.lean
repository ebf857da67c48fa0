import Descent.CommandLine.Path
import Descent.Error
import Descent.Table

/-!
# A tree of files

The files and directories that a run can see, as a table from locations to what
is there. A location is the list of names that leads to it from the root, which
is a directory. A path is followed piece by piece, and every piece wants to find a
directory; that is why a slash behind the name of a file is an error, and why
`sub/..` is one where `sub` does not exist. A name has a greatest length, and so has a
path that is handed over as a whole.

Writing replaces a file that is there, and otherwise creates it in a directory that
must exist. There are no links and no permissions.
-/

namespace Descent

/-- What is at a location. -/
inductive Node
  | file (contents : ByteArray)
  | directory

/-- The names that lead from the root to a place. -/
abbrev Location := List String

/-- Files and directories, and the directory in which relative paths begin. -/
structure FileTree where
  nodes : Table Location Node
  workingDirectory : Location

namespace FileTree

/-- The absolute path of a location. -/
def pathOf (location : Location) : String := "/" ++ Path.ofPieces location

/-- What is at a location. -/
def node? (t : FileTree) (location : Location) : Option Node :=
  if location = [] then some .directory else t.nodes.find? location

/-! ## Following paths -/

/-- What is under a name in a directory, if anything is. -/
def entry (t : FileTree) (directory : Location) (name : String) :
    Except FileError (Option Node) :=
  if name.utf8ByteSize ≤ Path.nameLimit then
    .ok (t.node? (directory ++ [name]))
  else
    .error .nameTooLong

/-- Follows pieces from a location. -/
def follow (t : FileTree) : Location → List String → Except FileError Location
  | here, [] => .ok here
  | here, piece :: rest =>
    match t.node? here with
    | none => .error .notFound
    | some (.file _) => .error .notADirectory
    | some .directory =>
      if Path.stays piece then
        t.follow here rest
      else if piece = ".." then
        t.follow here.dropLast rest
      else
        match t.entry here piece with
        | .error e => .error e
        | .ok none => .error .notFound
        | .ok (some _) => t.follow (here ++ [piece]) rest

/-- Follows the pieces of a path; a leading slash begins at the root. -/
def followPieces (t : FileTree) : List String → Except FileError Location
  | "" :: rest => t.follow [] rest
  | pieces => t.follow t.workingDirectory pieces

/-- Where a path leads that is resolved piece by piece, however long it is. -/
def resolve (t : FileTree) (path : String) : Except FileError Location :=
  if path = "" then .error .notFound else t.followPieces (Path.pieces path)

/-- The location that a path leads to. -/
def locate (t : FileTree) (path : String) : Except FileError Location :=
  if path.utf8ByteSize ≤ Path.limit then t.resolve path else .error .nameTooLong

/-- The directory that some pieces lead to. -/
def directoryAt (t : FileTree) (pieces : List String) : Except FileError Location :=
  match t.followPieces pieces with
  | .error e => .error e
  | .ok location =>
    match t.node? location with
    | some .directory => .ok location
    | _ => .error .notADirectory

/-- Where a file goes that is written to a path. The last piece must be a name without a
slash behind it, its directory must exist, and it must not name a directory itself. -/
def target (t : FileTree) (path : String) : Except FileError Location :=
  if path = "" then
    .error .notFound
  else if Path.limit < path.utf8ByteSize then
    .error .nameTooLong
  else
    match (Path.pieces path).reverse.dropWhile (· == "") with
    | [] => .error .isADirectory
    | name :: parents =>
      match t.directoryAt parents.reverse with
      | .error e => .error e
      | .ok directory =>
        if (Path.pieces path).getLast? = some name ∧ name ≠ "." ∧ name ≠ ".." then
          match t.entry directory name with
          | .error e => .error e
          | .ok (some .directory) => .error .isADirectory
          | .ok _ => .ok (directory ++ [name])
        else
          .error .isADirectory

/-! ## Reading and writing -/

/-- Whether a path leads anywhere. -/
def pathExists (t : FileTree) (path : String) : Bool :=
  match t.locate path with
  | .ok _ => true
  | .error _ => false

/-- The contents of the file at a path. -/
def read (t : FileTree) (path : String) : Except FileError ByteArray :=
  match t.locate path with
  | .error e => .error e
  | .ok location =>
    match t.node? location with
    | some (.file contents) => .ok contents
    | some .directory => .error .isADirectory
    | none => .error .notFound

/-- The tree after contents are written to a path. -/
def write (t : FileTree) (path : String) (contents : ByteArray) : Except FileError FileTree :=
  (t.target path).map fun location =>
    { t with nodes := t.nodes.insert location (.file contents) }

/-- The tree after the file at a path is copied to another path. -/
def copy (t : FileTree) (source target : String) : Except FileError FileTree :=
  match t.read source with
  | .ok contents => t.write target contents
  | .error .isADirectory => .error .notRegular
  | .error e => .error e

end FileTree

end Descent
