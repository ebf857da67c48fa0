/-!
# Paths

A path is text, and slashes cut it into pieces. An empty piece, or a single
period, stays where it is; two periods go up; any other piece is a name. The last
name is the one with nothing behind it but pieces that stay.

The extension of a name is what stands behind its last period, unless the name only
begins with that period. Replacing it takes two steps. The old extension is taken off
the end of the path, and then the new one is put behind what is the last name now. A
path such as `..c` has no name any more after the first step, so it becomes `..`.
-/

namespace Descent.Path

/-- The most bytes that a name has. -/
def nameLimit : Nat := 255

/-- The most bytes that a path has. -/
def limit : Nat := 4095

/-- The pieces between the slashes. -/
def pieces (path : String) : List String :=
  (path.toList.splitOnP (· == '/')).map .ofList

/-- The path with these pieces. -/
def ofPieces (pieces : List String) : String :=
  "/".intercalate pieces

/-- Whether a piece leads nowhere else. -/
def stays (piece : String) : Bool := piece == "" || piece == "."

/-- The last name of a path and the pieces in front of it. A path whose last step goes up
has no last name. -/
def lastName? (path : String) : Option (List String × String) :=
  match (pieces path).reverse.dropWhile stays with
  | [] => none
  | name :: parents => if name = ".." then none else some (parents.reverse, name)

/-! ## Extensions -/

/-- A name up to its last period, unless the name has none or only begins with it. -/
def stem (name : String) : String :=
  match name.toList.reverse.dropWhile (· != '.') with
  | '.' :: c :: rest => .ofList (c :: rest).reverse
  | _ => name

/-- The number of characters behind the stem of a name and its period. -/
def extensionLength (name : String) : Nat :=
  name.length - (stem name).length - 1

/-- The path without as many characters at its end as the extension of its last name has. -/
def dropExtension (path : String) : String :=
  match lastName? path with
  | none => path
  | some (_, name) => .ofList (path.toList.take (path.length - extensionLength name))

/-- The path with an extension behind the stem of its last name, where it has a last name. -/
def addExtension (path extension : String) : String :=
  match lastName? path with
  | none => path
  | some (parents, name) => ofPieces (parents ++ [stem name ++ "." ++ extension])

/-- The path with another extension. -/
def withExtension (path extension : String) : String :=
  addExtension (dropExtension path) extension

/-- The path of the copy that is kept of a file before it is overwritten. -/
def backup (path : String) : String := path ++ ".bak"

end Descent.Path
