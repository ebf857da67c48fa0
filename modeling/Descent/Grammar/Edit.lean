import Descent.Grammar.Basic

/-!
# Building a grammar step by step

A grammar can be put together by hand instead of being read from a file. Each
operation keeps the positions of the terminals and symbols that are there, and
none of them touches the sets of another symbol, so an analyzed grammar may be
extended and analyzed again.
-/

namespace Descent.Grammar

/-- Defines a terminal, or gives an existing one a new value. -/
def setTerminal (g : Grammar) (name value : String) : Grammar :=
  { g with header := { g.header with terminals := g.header.terminals.insert name value } }

/-- Sets an option. -/
def setOption (g : Grammar) (key value : String) : Grammar :=
  { g with header := { g.header with options := g.header.options.insert key value } }

/-- Declares a symbol; one that is there stays as it is. -/
def declare (g : Grammar) (name : String) : Grammar :=
  { g with symbols := g.symbols.upsert name fun symbol => symbol.getD {} }

/-- Adds an expansion to a symbol, which is declared if need be. -/
def addExpansion (g : Grammar) (name : String) (expansion : Expansion) : Grammar :=
  { g with
    symbols := g.symbols.upsert name fun symbol => (symbol.getD {}).addExpansion expansion }

/-- Applies a change to a symbol and passes on what it reports; `none` without such a symbol. -/
def changeSymbol? (g : Grammar) (name : String) (change : Symbol → Symbol × Bool) :
    Option (Grammar × Bool) :=
  (g.symbols.find? name).map fun symbol =>
    let changed := change symbol
    ({ g with symbols := g.symbols.insert name changed.1 }, changed.2)

end Descent.Grammar
