import Descent.File.Basic
import Descent.Text.Quoted

/-!
# Events

While a grammar file becomes a parser, a number of things are reported: every
item that is read, how much work the analysis was, an empty expansion that has no
effect, and a conflict. An event is one of these facts; its level, the stage that
it belongs to, its message and its numbers are functions of it.
-/

namespace Descent

/-- Something that is reported. -/
inductive Event
  /-- A header line was read. -/
  | item (item : HeaderItem)
  /-- A rule was read. -/
  | rule (rule : Rule)
  /-- A grammar file was read, with so many terminals, options and symbols. -/
  | parsed (terminals options symbols : Nat)
  /-- FIRST is complete after so many steps. -/
  | firstComplete (steps : Nat)
  /-- FOLLOW is complete after so many passes. -/
  | followComplete (passes : Nat)
  /-- An empty expansion of a symbol that has an earlier one. -/
  | duplicateEmpty (symbol : String) (index : Nat)
  /-- A conflict that was resolved. -/
  | conflict (conflict : Conflict)
deriving DecidableEq

namespace Event

/-- How important an event is. -/
inductive Level
  | trace
  | debug
  | warn
deriving DecidableEq

/-- The stage that an event belongs to. -/
inductive Stage
  | parse
  | analysis
  | generation
deriving DecidableEq

/-- The level as it is shown. -/
def Level.text : Level → String
  | .trace => "TRACE"
  | .debug => "DEBUG"
  | .warn => "WARN"

/-- The stage as it is shown. -/
def Stage.text : Stage → String
  | .parse => "parse"
  | .analysis => "compute_sets"
  | .generation => "codegen"

/-- Single items are traced, and only conflicts are warnings. -/
def level : Event → Level
  | .item _ => .trace
  | .rule _ => .trace
  | .parsed .. => .debug
  | .firstComplete _ => .debug
  | .followComplete _ => .debug
  | .duplicateEmpty .. => .debug
  | .conflict _ => .warn

/-- The stage in which an event happens. -/
def stage : Event → Stage
  | .item _ => .parse
  | .rule _ => .parse
  | .parsed .. => .parse
  | .firstComplete _ => .analysis
  | .followComplete _ => .analysis
  | .duplicateEmpty .. => .generation
  | .conflict _ => .generation

/-- The message of an event. -/
def message : Event → String
  | .item (.terminal name value) => "terminal " ++ name ++ " = " ++ Text.quoted value
  | .item (.option key value) => "option " ++ key ++ " = " ++ Text.quoted value
  | .rule r => "rule " ++ r.name ++ " := " ++ Text.quotedList r.expansion
  | .parsed .. => "parsed grammar"
  | .firstComplete _ => "FIRST sets converged"
  | .followComplete _ => "FOLLOW sets converged"
  | .duplicateEmpty symbol index =>
    symbol ++ ": duplicate empty expansion " ++ toString index ++ " ignored"
  | .conflict c => c.statement ++ "; keeping expansion " ++ toString c.kept

/-- The numbers that an event carries beside its message. -/
def numbers : Event → List (String × Nat)
  | .parsed terminals options symbols =>
    [("terminals", terminals), ("options", options), ("symbols", symbols)]
  | .firstComplete steps => [("steps", steps)]
  | .followComplete passes => [("passes", passes)]
  | .item _ => []
  | .rule _ => []
  | .duplicateEmpty .. => []
  | .conflict _ => []

end Event

end Descent
