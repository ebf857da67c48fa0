import Descent.Analysis.State
import Descent.Queue

/-!
# Nullability and FIRST sets

Every FIRST set starts with the terminals that its expansions begin with. Then
productions are taken from a queue: a production adds the FIRST set of its right
side to its owner, and if the right side is nullable it marks the owner. When
this changes the owner, every production that mentions the owner has to be looked
at again. The queue is filled in declaration order and empty in the end.

The loop runs on a budget of steps. A production is queued at the start, and
again only when a symbol that it mentions has changed; a symbol changes at most
once for each terminal that is there to be added, and once by being marked. The
budget is that bound, so the loop always ends with the queue empty.
-/

namespace Descent.Analysis

/-- Inserts the terminal that a production begins with into its owner's FIRST set. -/
def seedProduction (symbols : SymbolTable) (p : Production) : SymbolTable :=
  match p.right with
  | .terminal id :: _ => symbols.modifyAt p.owner fun symbol => (symbol.insertFirst id).1
  | _ => symbols

/-- Inserts the leading terminals of all productions. -/
def seed (ps : Productions) (symbols : SymbolTable) : SymbolTable :=
  ps.all.foldl seedProduction symbols

/-- Adds a set to a symbol's FIRST set, marks it if it is found nullable, and says whether
either changed it. -/
def absorb (first : TerminalSet) (nullable : Bool) (symbol : Symbol) : Symbol × Bool :=
  let grown := symbol.addFirst first
  if nullable then
    let marked := grown.1.markNullable
    (marked.1, grown.2 || marked.2)
  else
    grown

/-- Updates the owner of a production from its right side and says whether the owner
changed. -/
def updateFirst (mode : Mode) (symbols : SymbolTable) (p : Production) :
    SymbolTable × Bool :=
  changeAt symbols p.owner
    (absorb (sequenceFirst mode symbols p.right) (sequenceNullable symbols p.right))

/-! ## The worklist -/

/-- The state of the loop. -/
structure Worklist where
  /-- The productions to look at. -/
  pending : Queue Production
  symbols : SymbolTable
  /-- How many productions have been looked at. -/
  steps : Nat := 0

namespace Worklist

/-- Takes the next production and updates its owner; `none` when nothing is pending. -/
def step? (mode : Mode) (ps : Productions) (w : Worklist) : Option Worklist :=
  w.pending.pop?.map fun (p, pending) =>
    let updated := updateFirst mode w.symbols p
    { pending := if updated.2 then pending.pushAll (ps.users p.owner) else pending
      symbols := updated.1
      steps := w.steps + 1 }

/-- Takes steps while there is something to do and the budget lasts. -/
def run (mode : Mode) (ps : Productions) : Nat → Worklist → Worklist
  | 0, w => w
  | budget + 1, w =>
    match w.step? mode ps with
    | some next => run mode ps budget next
    | none => w

end Worklist

/-- The terminals that can get into a FIRST set: those of the productions, and those that
are in one to begin with. -/
def firstUniverse (ps : Productions) (symbols : SymbolTable) : TerminalSet :=
  (symbols.values.map Symbol.first).foldl (· ∪ ·)
    (.ofList (ps.all.flatMap fun p => p.right.filterMap Token.terminal?))

/-- As many steps as the loop can take at most. -/
def firstBudget (ps : Productions) (symbols : SymbolTable) : Nat :=
  ps.all.length +
    ps.userIndex.flatten.length * ((firstUniverse ps symbols).size + 1)

/-- Computes nullability and FIRST sets; the result tells the number of steps. -/
def firstSets (mode : Mode) (ps : Productions) (symbols : SymbolTable) : Worklist :=
  let seeded := seed ps symbols
  Worklist.run mode ps (firstBudget ps seeded) { pending := .ofList ps.all, symbols := seeded }

end Descent.Analysis
