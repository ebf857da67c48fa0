/-!
# Cutting a text at a separator

`cut? separator s` splits a text at the first place where the separator occurs.
What stands before it never contains the separator, so the cut is unique. A
second occurrence stays in the right part: that is how a value may hold an
equals sign of its own.
-/

namespace Descent.Text

/-- The parts before and after the first occurrence of a non-empty separator. -/
def cut? (separator : List Char) : List Char → Option (List Char × List Char)
  | [] => none
  | c :: cs =>
    if separator.isPrefixOf (c :: cs) then
      some ([], (c :: cs).drop separator.length)
    else
      (cut? separator cs).map fun parts => (c :: parts.1, parts.2)

/-- The part before the first occurrence of the separator, or the whole text without one. -/
def before (separator s : List Char) : List Char :=
  match cut? separator s with
  | some parts => parts.1
  | none => s

end Descent.Text
