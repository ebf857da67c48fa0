import Descent.Error
import Descent.Grammar.Basic

/-!
# Productions

The analysis works on productions: an expansion together with its place, which is
the position of the symbol that owns it and its index there, and with every name
resolved. Names resolve one by one, so a grammar is fit for analysis when no
symbol is named like a terminal and every name of every expansion stands for
something; `Grammar.fault?` finds the first symbol for which this fails.

A production has to be looked at again when a symbol that it mentions has
changed. `Productions.users` lists the productions that mention a symbol, each
once, in declaration order.
-/

namespace Descent

/-- A resolved expansion and its place. -/
structure Production where
  /-- The position of the symbol that it expands. -/
  owner : Nat
  /-- Its index among the expansions of that symbol. -/
  index : Nat
  right : List Token
deriving DecidableEq

/-- The position of a nonterminal. -/
def Token.nonterminal? : Token → Option Nat
  | .terminal _ => none
  | .nonterminal id => some id

/-- The position of a terminal. -/
def Token.terminal? : Token → Option Nat
  | .terminal id => some id
  | .nonterminal _ => none

namespace Grammar

/-- What is wrong with a symbol: it is named like a terminal, or one of the names that
its expansions mention stands for nothing. -/
def symbolFault? (g : Grammar) (name : String) (symbol : Symbol) : Option GrammarError :=
  if g.header.isTerminal name then
    some (.expansionForTerminal name)
  else
    (g.undefined? symbol.expansions.flatten).map .undefined

/-- What is wrong with the first symbol that has a fault. -/
def fault? (g : Grammar) : Option GrammarError :=
  g.symbols.entries.findSome? fun entry => g.symbolFault? entry.1 entry.2

/-- The productions of the symbol at a position. -/
def productionsOf (g : Grammar) (owner : Nat) (symbol : Symbol) : List Production :=
  symbol.expansions.zipIdx.map fun expansion =>
    ⟨owner, expansion.2, expansion.1.filterMap g.resolve⟩

/-- All productions in declaration order. -/
def productionList (g : Grammar) : List Production :=
  g.symbols.values.zipIdx.flatMap fun symbol => g.productionsOf symbol.2 symbol.1

end Grammar

namespace Production

/-- The positions of the symbols that a production mentions, each once. -/
def mentioned (p : Production) : List Nat :=
  (p.right.filterMap Token.nonterminal?).eraseDups

end Production

/-- The productions of a grammar, indexed by the symbols that they mention. -/
structure Productions where
  all : List Production
  /-- For each position, the productions that mention the symbol there. -/
  userIndex : List (List Production)

namespace Productions

/-- Puts a production in front of the users of every symbol that it mentions. -/
def addToIndex (p : Production) (index : List (List Production)) : List (List Production) :=
  p.mentioned.foldl (fun index n => index.modify n (p :: ·)) index

/-- Indexes productions over a number of symbols. -/
def ofList (symbolCount : Nat) (all : List Production) : Productions where
  all := all
  userIndex := all.foldr addToIndex (List.replicate symbolCount [])

/-- The productions that mention the symbol at a position. -/
def users (ps : Productions) (n : Nat) : List Production := ps.userIndex[n]?.getD []

end Productions

/-- The indexed productions of a grammar. -/
def Grammar.productions (g : Grammar) : Productions :=
  .ofList g.symbols.size g.productionList

end Descent
