import Descent.Error
import Descent.Parser.Routine

/-!
# Predictions

The expansions of a symbol claim the token values that they begin with, in
declaration order. A value belongs to the first expansion that claims it. When a
later expansion claims it as well, that is a conflict, and the value stays where
it is. Two terminals may have one value; then only the first of them is a
prediction, and within one expansion the second goes without saying.

Only the leading name of an expansion decides what it claims, even where that
name is a nullable symbol.
-/

namespace Descent

namespace Grammar

/-- The terminals that predict an expansion beginning with a name: that terminal itself, or
the FIRST set of that symbol. -/
def predicting (g : Grammar) (leading : String) : List Terminal :=
  match g.resolve leading with
  | some (.terminal id) => g.header.terminalsOf (.singleton id)
  | some (.nonterminal id) =>
    match g.symbols.at? id with
    | some entry => g.header.terminalsOf entry.2.first
    | none => []
  | none => []

end Grammar

namespace Prediction

/-- Token values, each with the index of the expansion that owns it. -/
abbrev Claims := List (String × Nat)

/-- What comes of the claims of one expansion. -/
structure Settlement where
  claims : Claims
  /-- The terminals whose values the expansion got. -/
  predictions : List Terminal
  /-- The terminals whose values an earlier expansion owns, with that expansion. -/
  refused : List (Terminal × Nat)
deriving DecidableEq

/-- Settles the claims of an expansion to the values of some terminals. -/
def settle (expansion : Nat) : Claims → List Terminal → Settlement
  | claims, [] => ⟨claims, [], []⟩
  | claims, terminal :: rest =>
    match claims.lookup terminal.value with
    | none =>
      let settled := settle expansion ((terminal.value, expansion) :: claims) rest
      { settled with predictions := terminal :: settled.predictions }
    | some owner =>
      let settled := settle expansion claims rest
      if owner = expansion then
        settled
      else
        { settled with refused := (terminal, owner) :: settled.refused }

/-- The conflicts of a settlement. -/
def Settlement.conflicts (settled : Settlement) (symbol : String) (expansion : Nat) :
    List Conflict :=
  settled.refused.map fun entry => ⟨symbol, entry.1.name, entry.2, expansion⟩

end Prediction

end Descent
