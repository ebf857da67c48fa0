import Descent.Analysis.Production

/-!
# What the analysis knows at a moment

The state of the analysis is the table of symbols itself. This module reads it by
position and changes it at one position. It also says what FIRST a sequence of
tokens has by the present state: the FIRST sets of the leading symbols, up to and
including the first that is not nullable.

A terminal ends such a sequence. In the mode `follow` it belongs to FIRST, in the
mode `firstOnly` it does not; there a terminal gets into a FIRST set only where an
expansion begins with it.
-/

namespace Descent

/-- Which sets are computed. -/
inductive Mode
  /-- FIRST only, where a terminal behind nullable symbols does not count. -/
  | firstOnly
  /-- FIRST and FOLLOW. -/
  | follow
deriving DecidableEq

namespace Analysis

/-- The symbol at a position. -/
def symbolAt? (symbols : SymbolTable) (n : Nat) : Option Symbol :=
  (symbols.at? n).map Prod.snd

/-- Whether the symbol at a position is nullable. -/
def nullableAt (symbols : SymbolTable) (n : Nat) : Bool :=
  (symbolAt? symbols n).any Symbol.nullable

/-- The FIRST set of the symbol at a position. -/
def firstAt (symbols : SymbolTable) (n : Nat) : TerminalSet :=
  ((symbolAt? symbols n).map Symbol.first).getD ∅

/-- The FOLLOW set of the symbol at a position. -/
def followAt (symbols : SymbolTable) (n : Nat) : TerminalSet :=
  ((symbolAt? symbols n).map Symbol.follow).getD ∅

/-- Changes the symbol at a position and passes on what the change reports. -/
def changeAt (symbols : SymbolTable) (n : Nat) (change : Symbol → Symbol × Bool) :
    SymbolTable × Bool :=
  (symbols.modifyAt n fun symbol => (change symbol).1,
    (symbolAt? symbols n).any fun symbol => (change symbol).2)

/-! ## Sequences of tokens -/

/-- What a terminal adds to the FIRST set of a sequence that it ends. -/
def terminalFirst : Mode → Nat → TerminalSet
  | .firstOnly, _ => ∅
  | .follow, id => .singleton id

/-- The FIRST set of a sequence of tokens, by the present state. -/
def sequenceFirst (mode : Mode) (symbols : SymbolTable) : List Token → TerminalSet
  | [] => ∅
  | .terminal id :: _ => terminalFirst mode id
  | .nonterminal n :: rest =>
    if nullableAt symbols n then
      firstAt symbols n ∪ sequenceFirst mode symbols rest
    else
      firstAt symbols n

/-- Whether every token of a sequence is a nullable symbol, by the present state. -/
def sequenceNullable (symbols : SymbolTable) (tokens : List Token) : Bool :=
  tokens.all fun
    | .terminal _ => false
    | .nonterminal n => nullableAt symbols n

end Analysis

end Descent
