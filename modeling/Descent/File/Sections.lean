import Descent.Error

/-!
# The sections of a grammar file

Two percent signs separate the header, the rules and the user code. The marks are
looked for from left to right and do not overlap, so of three percent signs the
last belongs to the section behind the mark. There is no way to quote the mark,
not even in the user code.
-/

namespace Descent

namespace File

/-- The parts of a text between the marks; one more than there are marks. -/
def pieces : List Char → List (List Char)
  | [] => [[]]
  | '%' :: '%' :: rest => [] :: pieces rest
  | c :: rest => (pieces rest).modifyHead (c :: ·)

end File

/-- The three sections, as they stand in the file. -/
structure Sections where
  header : String
  rules : String
  userCode : String
deriving DecidableEq

/-- Splits a source, which must have exactly two marks. -/
def Sections.split (source : String) : Except ParseError Sections :=
  match File.pieces source.toList with
  | [header, rules, userCode] => .ok ⟨.ofList header, .ofList rules, .ofList userCode⟩
  | pieces => .error (.sections pieces.length)

end Descent
