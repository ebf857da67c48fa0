import Descent.Parser.Basic

/-!
# Reading with a parser

What the generated code does when it runs, on a list of token values, with user
actions that always succeed. A routine looks at the next value and takes the
steps of the branch that predicts it. When no branch does, or there is no value
left, it succeeds without consuming anything if it has a fallback and fails
otherwise. A routine fails as soon as one of its steps does; there is no second
try.

Routines call each other without bound, so reading takes a limit on the depth of
calls. Running out of it is neither success nor failure.
-/

namespace Descent

/-- How a reading ends. -/
inductive Reading
  /-- With success, and these values are left. -/
  | accepted (rest : List String)
  | failed
  /-- At the limit on the depth of calls. -/
  | tooDeep
deriving DecidableEq

/-- Takes steps one after the other; `call` reads a symbol. -/
def Step.read (call : String → List String → Reading) : List Step → List String → Reading
  | [], values => .accepted values
  | .consume terminal _ :: rest, values =>
    match values with
    | [] => .failed
    | value :: values => if value = terminal.value then read call rest values else .failed
  | .call symbol _ _ :: rest, values =>
    match call symbol values with
    | .accepted values => read call rest values
    | .failed => .failed
    | .tooDeep => .tooDeep

/-- Whether the branch predicts a value. -/
def Branch.predicts (b : Branch) (value : String) : Bool :=
  b.predictions.any fun terminal => terminal.value == value

namespace Routine

/-- The branch that a value selects. -/
def branchFor? (r : Routine) (value : String) : Option Branch :=
  r.branches.find? fun branch => branch.predicts value

/-- The branch that the next of some values selects. -/
def branchAhead? (r : Routine) : List String → Option Branch
  | [] => none
  | value :: _ => r.branchFor? value

/-- Reads with a routine; `call` reads a symbol. -/
def read (r : Routine) (call : String → List String → Reading) (values : List String) : Reading :=
  match r.branchAhead? values with
  | some branch => Step.read call branch.steps values
  | none => if r.fallback.isSome then .accepted values else .failed

end Routine

namespace Parser

/-- Reads a symbol, with calls up to a depth. -/
def read (p : Parser) : Nat → String → List String → Reading
  | 0, _, _ => .tooDeep
  | depth + 1, symbol, values =>
    match p.routine? symbol with
    | some routine => routine.read (p.read depth) values
    | none => .failed

end Parser

end Descent
