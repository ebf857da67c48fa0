import Descent.Grammar.Basic
import Descent.Text.Lines

/-!
# The dump of a grammar

A dump lists the terminals, the options and the symbols with their sets, one item
a line. Its headings begin with the comment mark, and the lines of the first two
parts are written as in a grammar file, so that these parts can be read again as
a header.
-/

namespace Descent

namespace Header

/-- A heading, then the terminals. -/
def terminalLines (h : Header) : List String :=
  "## terminals:" :: h.terminals.entries.map fun entry => entry.1 ++ " = " ++ entry.2

/-- A heading, then the options. -/
def optionLines (h : Header) : List String :=
  "## options:" :: h.options.entries.map fun entry => "%" ++ entry.1 ++ " = " ++ entry.2

/-- The header's part of the dump, which an empty line ends. -/
def dumpLines (h : Header) : List String :=
  h.terminalLines ++ [""] ++ h.optionLines ++ [""]

/-- The names of a set's terminals in braces. -/
def setText (h : Header) (set : TerminalSet) : String :=
  "\x7b" ++ ", ".intercalate (h.terminalNames set) ++ "\x7d"

end Header

/-- An expansion on a line of its own. -/
def Expansion.line (expansion : Expansion) : String :=
  "  := " ++ if expansion.isEmpty then "<empty>" else " ".intercalate expansion

/-- A symbol's name, its sets and its expansions. -/
def Symbol.dumpLines (s : Symbol) (h : Header) (name : String) : List String :=
  [name ++ if s.nullable then " (nullable)" else "",
    "  first: " ++ h.setText s.first,
    "  follow: " ++ h.setText s.follow] ++ s.expansions.map Expansion.line

namespace Grammar

/-- A heading, then the symbols. -/
def symbolLines (g : Grammar) : List String :=
  "## nonterminals:" ::
    g.symbols.entries.flatMap fun entry => entry.2.dumpLines g.header entry.1

/-- The dump of a grammar. -/
def dump (g : Grammar) : String :=
  Text.unlines (g.header.dumpLines ++ g.symbolLines)

end Grammar

end Descent
