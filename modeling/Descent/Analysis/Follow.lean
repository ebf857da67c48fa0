import Descent.Analysis.State

/-!
# FOLLOW sets

A symbol is followed by what the tokens behind it can begin with, and if these
are nullable also by what follows the owner of the production. This is applied to
every place of every production, in declaration order, and the pass is repeated
until one changes nothing. FIRST sets and nullability are final at this point.

The passes run on a budget as well: each pass but the last adds a terminal to
some FOLLOW set, so there are no more of them than pairs of a symbol and a
terminal, and one more.
-/

namespace Descent.Analysis

/-- What follows a place in a production: the tokens behind it and the production's owner
decide. -/
def followOf (symbols : SymbolTable) (owner : Nat) (rest : List Token) : TerminalSet :=
  if sequenceNullable symbols rest then
    sequenceFirst .follow symbols rest ∪ followAt symbols owner
  else
    sequenceFirst .follow symbols rest

/-- Updates the FOLLOW sets of the symbols in a right side, from left to right, and says
whether one grew. -/
def updateFollow (owner : Nat) : SymbolTable → List Token → SymbolTable × Bool
  | symbols, [] => (symbols, false)
  | symbols, .terminal _ :: rest => updateFollow owner symbols rest
  | symbols, .nonterminal n :: rest =>
    let here := changeAt symbols n fun symbol => symbol.addFollow (followOf symbols owner rest)
    let there := updateFollow owner here.1 rest
    (there.1, here.2 || there.2)

/-- Updates the FOLLOW sets from every production and says whether one grew. -/
def followPass : List Production → SymbolTable → SymbolTable × Bool
  | [], symbols => (symbols, false)
  | p :: rest, symbols =>
    let here := updateFollow p.owner symbols p.right
    let there := followPass rest here.1
    (there.1, here.2 || there.2)

/-- The state of the loop. -/
structure FollowRun where
  symbols : SymbolTable
  /-- How many passes have been made. -/
  passes : Nat := 0

/-- Makes passes until one changes nothing or the budget is spent. -/
def FollowRun.run (ps : Productions) : Nat → FollowRun → FollowRun
  | 0, r => r
  | budget + 1, r =>
    let pass := followPass ps.all r.symbols
    if pass.2 then run ps budget ⟨pass.1, r.passes + 1⟩ else ⟨pass.1, r.passes + 1⟩

/-- The terminals that can get into a FOLLOW set: those of the productions, and those that
are in a FIRST or FOLLOW set to begin with. -/
def followUniverse (ps : Productions) (symbols : SymbolTable) : TerminalSet :=
  (symbols.values.map fun symbol => symbol.first ∪ symbol.follow).foldl (· ∪ ·)
    (.ofList (ps.all.flatMap fun p => p.right.filterMap Token.terminal?))

/-- As many passes as the loop can make at most. -/
def followBudget (ps : Productions) (symbols : SymbolTable) : Nat :=
  symbols.size * (followUniverse ps symbols).size + 1

/-- Computes the FOLLOW sets; the result tells the number of passes. -/
def followSets (ps : Productions) (symbols : SymbolTable) : FollowRun :=
  FollowRun.run ps (followBudget ps symbols) { symbols := symbols }

end Descent.Analysis
