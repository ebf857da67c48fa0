import Descent.Text.Blank
import Descent.Text.Cut

/-!
# The lines of a section

The header and the rules are read line by line. A comment mark ends what counts
of a line, blanks at its ends do not matter, and a line with nothing left is
passed over. A carriage return before the newline is a blank, so both ways to end
a line read the same.

A line defines a key and a value, with a separator between them. A line without
the separator defines a key with an empty value.
-/

namespace Descent.File

open Text

/-- What counts of a line: the part before the comment mark, trimmed. -/
def lineContent (line : List Char) : List Char :=
  trim (before ['#'] line)

/-- What counts of the lines of a text, where anything does. -/
def contentLines (text : List Char) : List (List Char) :=
  ((text.splitOnP (· == '\n')).map lineContent).filter fun line => !line.isEmpty

/-- The trimmed parts of a line before and after the first separator. -/
def keyValue (separator line : List Char) : List Char × List Char :=
  match cut? separator line with
  | some parts => (trim parts.1, trim parts.2)
  | none => (trim line, [])

end Descent.File
