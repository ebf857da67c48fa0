import Descent.Parser.Prediction
import Descent.Parser.Settings

/-!
# Building a parser

A parser is built from a grammar by giving every symbol a routine. The start
symbol is checked first, then every name that an expansion mentions; after that
nothing can fail except where conflicts are denied. The grammar need not have
been analyzed: then the predictions are whatever the FIRST sets hold.
-/

namespace Descent

/-- What becomes of conflicts. -/
inductive ConflictPolicy
  /-- They are resolved in favour of the earlier expansion. -/
  | ignore
  /-- The same, and they are reported. -/
  | warn
  /-- The first one is an error. -/
  | deny
deriving DecidableEq

/-- A generated parser, ready to be written down. -/
structure Parser where
  settings : Settings
  terminals : List Terminal
  routines : List Routine
  /-- The symbol that the entry point parses. -/
  start : Option String
  conflicts : List Conflict
  userCode : String
deriving DecidableEq

namespace Grammar

/-! ## Steps and branches -/

/-- The steps of an expansion, given how many terminals and symbols come before it. A name
that stands for nothing makes no step. -/
def steps (g : Grammar) (index slot : Nat) : Expansion → List Step
  | [] => []
  | name :: rest =>
    match g.header.findTerminal? name with
    | some terminal => .consume terminal index :: g.steps (index + 1) slot rest
    | none =>
      match g.symbols.find? name with
      | some symbol => .call name slot symbol.nullable :: g.steps index (slot + 1) rest
      | none => g.steps index slot rest

/-- The branches of a symbol and its conflicts, from its expansions with their indices and
from the claims made so far. -/
def branches (g : Grammar) (symbol : String) :
    Prediction.Claims → List (Expansion × Nat) → List Branch × List Conflict
  | _, [] => ([], [])
  | claims, ([], _) :: rest => g.branches symbol claims rest
  | claims, (leading :: names, index) :: rest =>
    let settled := Prediction.settle index claims (g.predicting leading)
    let later := g.branches symbol settled.claims rest
    (⟨index, settled.predictions, g.steps 0 0 (leading :: names)⟩ :: later.1,
      settled.conflicts symbol index ++ later.2)

/-! ## Routines -/

/-- The branches and conflicts of a symbol. -/
def dispatch (g : Grammar) (name : String) (symbol : Symbol) : List Branch × List Conflict :=
  g.branches name [] symbol.expansions.zipIdx

/-- The routine of a symbol. -/
def routine (g : Grammar) (settings : Settings) (name : String) (symbol : Symbol) : Routine where
  symbol := name
  name := settings.routineName name
  nullable := symbol.nullable
  branches := (g.dispatch name symbol).1
  fallback := symbol.expansions.idxOf? []

/-- The routines in declaration order. -/
def routines (g : Grammar) (settings : Settings) : List Routine :=
  g.symbols.entries.map fun entry => g.routine settings entry.1 entry.2

/-- The conflicts of all symbols, by symbol, then by shadowed expansion, then by terminal. -/
def conflicts (g : Grammar) : List Conflict :=
  g.symbols.entries.flatMap fun entry => (g.dispatch entry.1 entry.2).2

/-! ## The parser -/

/-- The start symbol that was asked for, else the first symbol; an error if the one that was
asked for does not exist. -/
def startSymbol (g : Grammar) (settings : Settings) : Except GrammarError (Option String) :=
  match settings.start with
  | some name => if g.symbols.contains name then .ok (some name) else .error (.unknownStart name)
  | none => .ok g.symbols.keys.head?

/-- The names that the expansions mention, in order. -/
def mentionedNames (g : Grammar) : List String :=
  g.symbols.values.flatMap fun symbol => symbol.expansions.flatten

/-- The parser for a grammar whose start symbol is settled and whose names all stand for
something. -/
def parserFrom (g : Grammar) (settings : Settings) (start : Option String) : Parser where
  settings := settings
  terminals := g.header.terminals.entries.map fun entry => ⟨entry.1, entry.2⟩
  routines := g.routines settings
  start := start
  conflicts := g.conflicts
  userCode := g.userCode

end Grammar

namespace Parser

/-- Fails with the first conflict where conflicts are denied. -/
def underPolicy (p : Parser) : ConflictPolicy → Except GrammarError Parser
  | .ignore => .ok p
  | .warn => .ok p
  | .deny =>
    match p.conflicts with
    | [] => .ok p
    | c :: _ => .error (.conflict c)

/-- Builds the parser of a grammar. -/
def build (g : Grammar) (settings : Settings) (policy : ConflictPolicy) :
    Except GrammarError Parser :=
  match g.startSymbol settings with
  | .error e => .error e
  | .ok start =>
    match g.undefined? g.mentionedNames with
    | some name => .error (.undefined name)
    | none => (g.parserFrom settings start).underPolicy policy

/-- The routine of a symbol. -/
def routine? (p : Parser) (symbol : String) : Option Routine :=
  p.routines.find? fun routine => routine.symbol == symbol

/-! ## What is never selected -/

/-- The expansions whose branches no terminal selects, as `symbol#index`. -/
def neverSelected (p : Parser) : List String :=
  p.routines.flatMap fun routine =>
    (routine.branches.filter fun branch => branch.predictions.isEmpty).map fun branch =>
      routine.symbol ++ "#" ++ toString branch.expansion

end Parser

end Descent
