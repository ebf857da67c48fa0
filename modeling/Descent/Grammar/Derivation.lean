import Descent.Grammar.Basic

/-!
# Derivations

What a grammar means, said without any of its sets. A sentential form is a list
of tokens. A step replaces one nonterminal by one of its right sides, and a form
derives what can be reached from it in any number of steps.

Only expansions count here: a symbol without any has no right side, so it stays
in a form for good, although the analysis takes it for nullable. A name that
stands for nothing is passed over, which does not happen in a grammar without a
fault.

Forms of terminals alone are words. What the lexer emits for a word is the list
of the values of its terminals, and two words may look the same to the lexer.
-/

namespace Descent

namespace Grammar

/-- The right sides of the symbol at a position. -/
def rightSides (g : Grammar) (n : Nat) : List (List Token) :=
  match g.symbols.at? n with
  | none => []
  | some entry => entry.2.expansions.map fun expansion => expansion.filterMap g.resolve

/-- One step: a nonterminal is replaced by one of its right sides. -/
inductive Expands (g : Grammar) : List Token → List Token → Prop
  | replace (before after : List Token) {n : Nat} {right : List Token}
      (mem : right ∈ g.rightSides n) :
      Expands g (before ++ .nonterminal n :: after) (before ++ right ++ after)

/-- Any number of steps. -/
inductive Derives (g : Grammar) : List Token → List Token → Prop
  | refl (form : List Token) : Derives g form form
  | step {form next last : List Token} (first : Expands g form next)
      (others : Derives g next last) : Derives g form last

/-- At least one step. -/
def DerivesProperly (g : Grammar) (form last : List Token) : Prop :=
  ∃ next, g.Expands form next ∧ g.Derives next last

end Grammar

/-! ## Words -/

namespace Header

/-- The value of the terminal at a position. -/
def value? (h : Header) (id : Nat) : Option String := (h.terminal? id).map Terminal.value

/-- A word looks like a list of values to the lexer. -/
def Emits (h : Header) (word : List Nat) (values : List String) : Prop :=
  word.map h.value? = values.map some

end Header

end Descent
