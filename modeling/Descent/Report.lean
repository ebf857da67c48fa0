import Descent.Analysis.Basic
import Descent.Event
import Descent.Parser.Basic

/-!
# From a source to a parser

A source is read, then analyzed in a mode (or left as it is), and then a parser is
built from it. `Report` pairs the outcome of such a run with its events in order.
A run that fails still reports what happened before the failure, so the events of
each stage are listed apart from the stage itself.
-/

namespace Descent

namespace Event

/-- What is reported on reading the sections of a grammar file. -/
def ofSections (sections : Sections) : List Event :=
  let g := Grammar.ofSections sections
  (HeaderItem.listOfText sections.header).map .item ++
    (Rule.listOfText sections.rules).map .rule ++
    [.parsed g.header.terminals.size g.header.options.size g.symbols.size]

/-- What is reported on analyzing a grammar. -/
def ofAnalysis (result : Analysis.Result) : List Event :=
  .firstComplete result.steps :: result.passes.toList.map .followComplete

/-! ## Duplicate empty expansions -/

/-- Whether an expansion is empty and not the first such one of a symbol. -/
def isDuplicateEmpty (symbol : Symbol) (expansion : Expansion × Nat) : Bool :=
  expansion.1.isEmpty && symbol.expansions.idxOf? [] != some expansion.2

/-- Each expansion of a grammar in order, with the event that it causes, if any. -/
def expansionNotes (g : Grammar) : List (Expansion × Option Event) :=
  g.symbols.entries.flatMap fun entry =>
    entry.2.expansions.zipIdx.map fun expansion =>
      (expansion.1,
        if isDuplicateEmpty entry.2 expansion then
          some (.duplicateEmpty entry.1 expansion.2)
        else
          none)

/-- What is reported on giving routines to the symbols; an expansion with an undefined name
ends it. -/
def ofExpansions (g : Grammar) : List Event :=
  ((expansionNotes g).takeWhile fun note => (g.undefined? note.1).isNone).filterMap Prod.snd

/-- What is reported on building a parser. Nothing is when the start symbol is unknown, and
conflicts are when all routines are there. -/
def ofBuild (g : Grammar) (settings : Settings) (policy : ConflictPolicy) : List Event :=
  match g.startSymbol settings with
  | .error _ => []
  | .ok _ =>
    match policy, g.undefined? g.mentionedNames with
    | .warn, none => ofExpansions g ++ g.conflicts.map .conflict
    | _, _ => ofExpansions g

end Event

/-- A run and what it reported. -/
structure Report where
  events : List Event
  outcome : Except Error Parser

namespace Report

/-- Builds a parser from a grammar, with the settings of its header adjusted. -/
def ofGrammar (adjust : Settings → Settings) (policy : ConflictPolicy) (g : Grammar) : Report :=
  let settings := adjust (.ofHeader g.header)
  ⟨Event.ofBuild g settings policy, (Parser.build g settings policy).mapError .grammar⟩

/-- Puts earlier events in front. -/
def after (events : List Event) (report : Report) : Report :=
  { report with events := events ++ report.events }

/-- Analyzes a grammar, if a mode is given, and builds a parser from it. -/
def ofParsed (mode : Option Mode) (adjust : Settings → Settings) (policy : ConflictPolicy)
    (g : Grammar) : Report :=
  match mode with
  | none => ofGrammar adjust policy g
  | some mode =>
    match g.analyze mode with
    | .error e => ⟨[], .error (.grammar e)⟩
    | .ok analyzed =>
      (ofGrammar adjust policy analyzed).after (Event.ofAnalysis (g.analysis mode))

/-- Reads a source, analyzes it if a mode is given, and builds a parser from it. -/
def ofSource (mode : Option Mode) (adjust : Settings → Settings) (policy : ConflictPolicy)
    (source : String) : Report :=
  match Sections.split source with
  | .error e => ⟨[], .error (.parse e)⟩
  | .ok sections =>
    (ofParsed mode adjust policy (.ofSections sections)).after (Event.ofSections sections)

end Report

end Descent
