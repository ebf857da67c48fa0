import Descent.Grammar.Basic

/-!
# Routines

A generated parser has one routine for each symbol. A routine looks at the next
token. If its value is predicted by one of the branches, the steps of that branch
are taken in order; otherwise the fallback is taken, where there is one, and it
takes no steps. Every branch belongs to a non-empty expansion, and the fallback
to the first empty one.
-/

namespace Descent

/-- One step of a branch. -/
inductive Step
  /-- Consumes a terminal; the index counts the terminals of the expansion. -/
  | consume (terminal : Terminal) (index : Nat)
  /-- Parses a symbol and keeps the result in a slot; slots count the symbols of the
  expansion. -/
  | call (symbol : String) (slot : Nat) (nullable : Bool)
deriving DecidableEq

/-- Whether a step parses a symbol. -/
def Step.isCall : Step → Bool
  | .consume .. => false
  | .call .. => true

/-- How one expansion is parsed. -/
structure Branch where
  /-- The index of the expansion. -/
  expansion : Nat
  /-- The terminals that select the branch. -/
  predictions : List Terminal
  steps : List Step
deriving DecidableEq

namespace Branch

/-- How many symbols the branch parses. -/
def nodeCount (b : Branch) : Nat := b.steps.countP Step.isCall

/-- How many terminals the branch consumes. -/
def terminalCount (b : Branch) : Nat := b.steps.countP fun step => !step.isCall

end Branch

/-- How a symbol is parsed. -/
structure Routine where
  symbol : String
  /-- The name of the generated function. -/
  name : String
  nullable : Bool
  branches : List Branch
  /-- The index of the first empty expansion. -/
  fallback : Option Nat
deriving DecidableEq

namespace Routine

/-- The largest number of symbols in a branch. -/
def nodeCount (r : Routine) : Nat := (r.branches.map Branch.nodeCount).foldl max 0

/-- The largest number of terminals in a branch. -/
def terminalCount (r : Routine) : Nat := (r.branches.map Branch.terminalCount).foldl max 0

end Routine

end Descent
