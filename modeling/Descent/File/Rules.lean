import Descent.File.Line
import Descent.Grammar.Basic

/-!
# Reading the rules

A line of the rules section gives one expansion of one symbol. The lines of a
symbol need not stand together: a symbol's place is that of its first line, and
its expansions are in the order of their lines.
-/

namespace Descent

/-- One expansion of the symbol with a name. -/
structure Rule where
  name : String
  expansion : Expansion
deriving DecidableEq

namespace Rule

/-- Reads a line: the name, the separator, the names of the expansion. -/
def ofLine (line : List Char) : Rule :=
  let parts := File.keyValue [':', '='] line
  ⟨.ofList parts.1, (Text.words parts.2).map .ofList⟩

/-- The rules that a text gives, in order. -/
def listOfText (text : String) : List Rule :=
  (File.contentLines text.toList).map ofLine

/-- Adds a rule to a table of symbols. -/
def addTo (symbols : SymbolTable) (rule : Rule) : SymbolTable :=
  symbols.upsert rule.name fun symbol => (symbol.getD {}).addExpansion rule.expansion

end Rule

namespace Symbol

/-- The table of symbols with these rules. -/
def tableOfRules (rules : List Rule) : SymbolTable :=
  rules.foldl Rule.addTo ∅

/-- Reads a rules section. -/
def parseTable (text : String) : SymbolTable :=
  tableOfRules (Rule.listOfText text)

end Symbol

end Descent
