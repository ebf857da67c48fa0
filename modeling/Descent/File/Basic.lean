import Descent.File.Header
import Descent.File.Rules
import Descent.File.Sections

/-!
# Reading a grammar file

The three sections are read on their own; the user code is taken as it stands.
Nothing is checked here beyond the number of sections, and nothing is analyzed.
-/

namespace Descent.Grammar

/-- The grammar of three sections. -/
def ofSections (sections : Sections) : Grammar where
  header := .parse sections.header
  symbols := Symbol.parseTable sections.rules
  userCode := sections.userCode

/-- Reads a grammar file. -/
def parse (source : String) : Except ParseError Grammar :=
  (Sections.split source).map ofSections

end Descent.Grammar
