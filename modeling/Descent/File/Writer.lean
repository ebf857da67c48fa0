import Descent.File.Basic
import Descent.Text.Lines

/-!
# Writing a grammar file

A grammar is written with one definition a line: the terminals, the options, then
behind the section mark the expansions of each symbol. The user code follows the
second mark directly. What was written reads back as the same grammar, as long as
no name or value holds a character that means something at its place.
-/

namespace Descent

/-- The lines that define a header. -/
def Header.fileLines (h : Header) : List String :=
  h.terminals.entries.map (fun entry => entry.1 ++ " = " ++ entry.2) ++
    h.options.entries.map fun entry => "% " ++ entry.1 ++ " = " ++ entry.2

/-- The lines that give a symbol its expansions. -/
def Symbol.fileLines (s : Symbol) (name : String) : List String :=
  s.expansions.map fun expansion => name ++ " := " ++ " ".intercalate expansion

namespace Grammar

/-- The lines of a grammar's rules. -/
def ruleLines (g : Grammar) : List String :=
  g.symbols.entries.flatMap fun entry => entry.2.fileLines entry.1

/-- The text of a grammar file. -/
def write (g : Grammar) : String :=
  Text.unlines (g.header.fileLines ++ ["%%"] ++ g.ruleLines) ++ "%%" ++ g.userCode

end Grammar

end Descent
