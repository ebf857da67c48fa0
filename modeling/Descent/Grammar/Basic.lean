import Descent.Table
import Descent.TerminalSet

/-!
# Grammars

A grammar has a header, which defines the terminals and some options, a table of
symbols with their expansions, and a piece of user code that is handed through.
A terminal has a name, by which expansions mention it, and a value, by which the
generated code recognises it.

A symbol carries what the analysis finds out about it: a mark that it derives the
empty string, its FIRST set and its FOLLOW set. The mark alone does not decide
nullability, since a symbol without any expansion counts as nullable as well.

`Grammar.resolve` gives a name its meaning. Terminals come before symbols.
-/

namespace Descent

/-- A terminal: its name in the grammar and the value that the lexer emits for it. -/
structure Terminal where
  name : String
  value : String
deriving DecidableEq

/-! ## Header -/

/-- The terminals, each with its value, and the options. -/
structure Header where
  terminals : Table String String := ∅
  options : Table String String := ∅
deriving DecidableEq

namespace Header

/-- The value of an option. -/
def option? (h : Header) (key : String) : Option String := h.options.find? key

/-- The value of an option, or a default when it is not set. -/
def optionOr (h : Header) (key default : String) : String := (h.option? key).getD default

/-- Whether a name is a terminal's. -/
def isTerminal (h : Header) (name : String) : Bool := h.terminals.contains name

/-- The position of the terminal with a name. -/
def terminalId? (h : Header) (name : String) : Option Nat := h.terminals.position? name

/-- The terminal at a position. -/
def terminal? (h : Header) (id : Nat) : Option Terminal :=
  (h.terminals.at? id).map fun entry => ⟨entry.1, entry.2⟩

/-- The terminal with a name. -/
def findTerminal? (h : Header) (name : String) : Option Terminal :=
  (h.terminals.find? name).map fun value => ⟨name, value⟩

/-- The terminals of a set by rising position; a position without a terminal is passed over. -/
def terminalsOf (h : Header) (set : TerminalSet) : List Terminal :=
  set.ids.filterMap h.terminal?

/-- The names of the terminals of a set. -/
def terminalNames (h : Header) (set : TerminalSet) : List String :=
  (h.terminalsOf set).map Terminal.name

end Header

/-! ## Symbols -/

/-- One alternative of a symbol: the names that it expands to, in order. -/
abbrev Expansion := List String

/-- A nonterminal: its expansions, and what the analysis has found so far. -/
structure Symbol where
  expansions : List Expansion := []
  /-- Known to derive the empty string. -/
  marked : Bool := false
  first : TerminalSet := ∅
  follow : TerminalSet := ∅
deriving DecidableEq

namespace Symbol

instance : Inhabited Symbol := ⟨{}⟩

/-- A symbol is nullable when it is marked, and also when it has no expansion at all. -/
def nullable (s : Symbol) : Bool := s.expansions.isEmpty || s.marked

/-- The symbol with one more expansion; an empty one marks it nullable. -/
def addExpansion (s : Symbol) (expansion : Expansion) : Symbol :=
  { s with
    expansions := s.expansions ++ [expansion]
    marked := s.marked || expansion.isEmpty }

/-- Marks the symbol and says whether it was not nullable before. -/
def markNullable (s : Symbol) : Symbol × Bool :=
  ({ s with marked := true }, !s.nullable)

/-- Inserts a terminal into FIRST and says whether it was absent. -/
def insertFirst (s : Symbol) (id : Nat) : Symbol × Bool :=
  let grown := s.first.insertNew id
  ({ s with first := grown.1 }, grown.2)

/-- Adds a set to FIRST and says whether FIRST grew. -/
def addFirst (s : Symbol) (set : TerminalSet) : Symbol × Bool :=
  let grown := s.first.addAll set
  ({ s with first := grown.1 }, grown.2)

/-- Adds a set to FOLLOW and says whether FOLLOW grew. -/
def addFollow (s : Symbol) (set : TerminalSet) : Symbol × Bool :=
  let grown := s.follow.addAll set
  ({ s with follow := grown.1 }, grown.2)

end Symbol

/-! ## Grammars -/

/-- The symbols by name, in the order of their declaration. -/
abbrev SymbolTable := Table String Symbol

/-- A grammar file's contents, analyzed or not. -/
structure Grammar where
  header : Header := {}
  symbols : SymbolTable := ∅
  userCode : String := ""
deriving DecidableEq

/-- What a name in an expansion stands for, by position. -/
inductive Token
  | terminal (id : Nat)
  | nonterminal (id : Nat)
deriving DecidableEq

namespace Grammar

/-- What a name stands for: the terminal of that name, else the symbol. -/
def resolve (g : Grammar) (name : String) : Option Token :=
  match g.header.terminalId? name with
  | some id => some (.terminal id)
  | none => (g.symbols.position? name).map .nonterminal

/-- The first of some names that stands for nothing. -/
def undefined? (g : Grammar) (names : List String) : Option String :=
  names.find? fun name => (g.resolve name).isNone

end Grammar

end Descent
