import Descent.C.Program
import Descent.Parser.Basic

/-!
# The C program for a parser

Every branch declares its user action, also one that no token selects; but only
branches that some token selects become cases. The fallback's action is declared
behind those of the branches.
-/

namespace Descent.C

/-- What a user action takes for a step. -/
def ParameterType.ofStep : Step → ParameterType
  | .consume .. => .token
  | .call .. => .node

/-- What is passed to a user action for a step. -/
def Argument.ofStep : Step → Argument
  | .consume terminal _ => .value terminal.value
  | .call _ slot _ => .node slot

/-- The check that carries out a step. -/
def Check.ofStep (settings : Settings) : Step → Check
  | .consume terminal _ => .eat terminal.value
  | .call symbol slot _ => .fill slot (settings.routineName symbol)

/-- The user action of a branch. -/
def Prototype.ofBranch (settings : Settings) (symbol : String) (b : Branch) : Prototype where
  name := settings.actionName symbol b.expansion
  parameters := b.steps.map .ofStep

/-- The user action of a fallback, which takes nothing. -/
def Prototype.ofFallback (settings : Settings) (symbol : String) (expansion : Nat) :
    Prototype where
  name := settings.actionName symbol expansion
  parameters := []

/-- The user actions of a routine. -/
def Prototype.listOfRoutine (settings : Settings) (r : Routine) : List Prototype :=
  r.branches.map (.ofBranch settings r.symbol) ++
    r.fallback.toList.map (.ofFallback settings r.symbol)

/-- The case of a branch. -/
def Case.ofBranch (settings : Settings) (symbol : String) (b : Branch) : Case where
  labels := b.predictions.map Terminal.value
  checks := b.steps.map (.ofStep settings)
  action := ⟨settings.actionName symbol b.expansion, b.steps.map .ofStep⟩

/-- The function of a routine. -/
def Function.ofRoutine (settings : Settings) (r : Routine) : Function where
  name := r.name
  slotCount := r.nodeCount
  cases := (r.branches.filter fun branch => !branch.predictions.isEmpty).map
    (.ofBranch settings r.symbol)
  fallback := r.fallback.map fun expansion => ⟨settings.actionName r.symbol expansion, []⟩

/-- The program of a parser. -/
def Program.ofParser (p : Parser) : Program where
  settings := p.settings
  routines := p.routines.map Routine.name
  actions := p.routines.flatMap (Prototype.listOfRoutine p.settings)
  functions := p.routines.map (.ofRoutine p.settings)
  entry := p.start.map p.settings.routineName
  userCode := p.userCode

end Descent.C
