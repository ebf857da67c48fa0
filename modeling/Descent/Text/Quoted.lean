import Descent.Text.Extending
import Descent.Text.Unprintable

/-!
# Quoted texts

Messages show a value in double quotes, so that its ends are visible. Inside,
the quote and the backslash get a backslash in front, the common control
characters have short names, and every other character that would not be seen
by itself, because it prints as nothing or only extends the one before it, is
written by its code point in braces.
-/

namespace Descent.Text

/-- How one character is written between quotes. -/
def escape (c : Char) : List Char :=
  match c with
  | '"' => ['\\', '"']
  | '\\' => ['\\', '\\']
  | '\t' => ['\\', 't']
  | '\r' => ['\\', 'r']
  | '\n' => ['\\', 'n']
  | '\x00' => ['\\', '0']
  | c =>
    if isExtending c || isUnprintable c then
      ['\\', 'u', '\x7b'] ++ Nat.toDigits 16 c.toNat ++ ['\x7d']
    else
      [c]

/-- The text between double quotes, every character escaped. -/
def quoted (s : String) : String :=
  "\"" ++ String.ofList (s.toList.flatMap escape) ++ "\""

/-- The quoted texts between brackets, separated by a comma and a space. -/
def quotedList (items : List String) : String :=
  "[" ++ ", ".intercalate (items.map quoted) ++ "]"

end Descent.Text
