/-!
# Texts made of lines

Everything that is written out is a list of lines first.
-/

namespace Descent.Text

/-- Ends every line with a newline. -/
def unlines (lines : List String) : String :=
  String.join (lines.map fun line => line ++ "\n")

/-- A text in the middle of a field, where an odd blank goes to the right. -/
def centred (width : Nat) (s : String) : String :=
  let missing := width - s.length
  let left := missing / 2
  String.ofList (List.replicate left ' ') ++ s ++
    String.ofList (List.replicate (missing - left) ' ')

end Descent.Text
