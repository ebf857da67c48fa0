import Descent.Analysis.First
import Descent.Analysis.Follow

/-!
# Analyzing a grammar

An analysis first makes sure that the grammar is fit for it, and otherwise
changes nothing. It starts from what the symbols carry already, so a grammar that
has grown can be analyzed again.
-/

namespace Descent

/-- What an analysis finds, and how much work it was. -/
structure Analysis.Result where
  symbols : SymbolTable
  /-- The productions looked at for FIRST. -/
  steps : Nat
  /-- The passes made for FOLLOW, if it was computed. -/
  passes : Option Nat

namespace Grammar

/-- Computes the sets of a grammar in which every name is resolved. -/
def analysis (mode : Mode) (g : Grammar) : Analysis.Result :=
  let ps := g.productions
  let first := Analysis.firstSets mode ps g.symbols
  match mode with
  | .firstOnly => ⟨first.symbols, first.steps, none⟩
  | .follow =>
    let follow := Analysis.followSets ps first.symbols
    ⟨follow.symbols, first.steps, some follow.passes⟩

/-- The analyzed grammar, or the first fault. -/
def analyze (mode : Mode) (g : Grammar) : Except GrammarError Grammar :=
  match g.fault? with
  | some fault => .error fault
  | none => .ok { g with symbols := (g.analysis mode).symbols }

/-- Analyzes a grammar that may not be fit for it; then it stays as it is, and the fault is
returned beside it. -/
def tryAnalyze (mode : Mode) (g : Grammar) : Grammar × Option GrammarError :=
  match g.analyze mode with
  | .ok analyzed => (analyzed, none)
  | .error fault => (g, some fault)

end Grammar

end Descent
