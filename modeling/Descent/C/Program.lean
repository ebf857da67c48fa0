import Descent.Parser.Settings

/-!
# The C program of a parser

What the generated C consists of, before it is text: prototypes of the routines
and of the user actions, one function for each routine, and an entry point. A
function switches on the next token. A case has the labels that select it, then
checks that consume a token or call a routine and leave the function when they
fail, and at the end the call of a user action.

That a called function is declared, and with the parameters that the call passes,
is a matter of these structures alone.
-/

namespace Descent.C

/-- What a user action takes for one step: a token, or a parse tree node. -/
inductive ParameterType
  | token
  | node
deriving DecidableEq

/-- What a call of a user action passes for one step. -/
inductive Argument
  /-- The value of the token that was consumed. -/
  | value (text : String)
  /-- The node in a slot. -/
  | node (slot : Nat)
deriving DecidableEq

/-- The prototype of a user action. -/
structure Prototype where
  name : String
  parameters : List ParameterType
deriving DecidableEq

/-- A call of a user action. -/
structure ActionCall where
  name : String
  arguments : List Argument
deriving DecidableEq

/-- A statement that leaves the function when it fails. -/
inductive Check
  /-- Consumes a token of this value. -/
  | eat (value : String)
  /-- Calls a routine and keeps its node in a slot. -/
  | fill (slot : Nat) (routine : String)
deriving DecidableEq

/-- What is done for a group of token values. -/
structure Case where
  labels : List String
  checks : List Check
  action : ActionCall
deriving DecidableEq

/-- The function of a routine. -/
structure Function where
  name : String
  /-- The number of slots for nodes. -/
  slotCount : Nat
  cases : List Case
  /-- What is done for any other token; without it the function fails. -/
  fallback : Option ActionCall
deriving DecidableEq

/-- A whole program. -/
structure Program where
  settings : Settings
  /-- The names of the routines that are declared. -/
  routines : List String
  /-- The user actions that are declared. -/
  actions : List Prototype
  functions : List Function
  /-- The routine that the entry point calls. -/
  entry : Option String
  userCode : String
deriving DecidableEq

end Descent.C
