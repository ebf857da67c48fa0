import Descent.File.Line
import Descent.Grammar.Basic

/-!
# Reading a header

A line of the header defines a terminal, or an option if an option mark stands in
front. The items are collected in order; a later definition of a name replaces
the value and keeps the name's place.
-/

namespace Descent

/-- What a line of the header defines. -/
inductive HeaderItem
  | terminal (name value : String)
  | option (key value : String)
deriving DecidableEq

namespace HeaderItem

/-- Reads a line: behind an option mark an option, otherwise a terminal. -/
def ofLine : List Char → HeaderItem
  | '%' :: rest =>
    let parts := File.keyValue ['='] rest
    .option (.ofList parts.1) (.ofList parts.2)
  | line =>
    let parts := File.keyValue ['='] line
    .terminal (.ofList parts.1) (.ofList parts.2)

/-- The items that a text defines, in order. -/
def listOfText (text : String) : List HeaderItem :=
  (File.contentLines text.toList).map ofLine

end HeaderItem

namespace Header

/-- Adds one item. -/
def add (h : Header) : HeaderItem → Header
  | .terminal name value => { h with terminals := h.terminals.insert name value }
  | .option key value => { h with options := h.options.insert key value }

/-- The header with these items. -/
def ofItems (items : List HeaderItem) : Header :=
  items.foldl add {}

/-- Reads a header section. -/
def parse (text : String) : Header :=
  ofItems (HeaderItem.listOfText text)

end Header

end Descent
