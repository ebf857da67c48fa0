import Descent.Grammar.Basic

/-!
# Settings of a generated parser

The options of the header choose the names that the generated code uses. An
option that is set to the empty text counts as not set. Most defaults are made
from the name prefix, so that two generated parsers can live in one program. The
call of the lexer has two option names, and `lexer_function` goes before
`lexer_entry`.
-/

namespace Descent

/-- The names that the generated code uses. -/
structure Settings where
  /-- In front of every generated name. -/
  namePrefix : String
  tokenType : String
  /-- The expression that reads the next token. -/
  lexerCall : String
  /-- What the include directive for the lexer names, with its quotes or angles. -/
  lexerInclude : String
  /-- The type of flags and of the results of matching a token. -/
  flagType : String
  /-- The start symbol, if one is asked for. -/
  start : Option String
deriving DecidableEq

namespace Settings

/-- The value of an option that is set to something. -/
def chosen? (h : Header) (key : String) : Option String :=
  (h.option? key).filter fun value => !value.isEmpty

/-- The settings that a header asks for. -/
def ofHeader (h : Header) : Settings :=
  let namePrefix := (chosen? h "prefix").getD "yy"
  { namePrefix
    tokenType := (chosen? h "token_type").getD (namePrefix ++ "_token_t")
    lexerCall := ((chosen? h "lexer_function").or (chosen? h "lexer_entry")).getD
      (namePrefix ++ "_get_next_token()")
    lexerInclude := (chosen? h "lexer_include").getD "<lexer.h>"
    flagType := (chosen? h "token_flag_type").getD "int"
    start := chosen? h "start" }

/-- A name with the name prefix. -/
def prefixed (s : Settings) (name : String) : String :=
  s.namePrefix ++ "_" ++ name

/-- The name of the routine that parses a symbol. -/
def routineName (s : Settings) (symbol : String) : String :=
  s.prefixed symbol

/-- The name of the user action that is called when an expansion of a symbol is parsed. -/
def actionName (s : Settings) (symbol : String) (expansion : Nat) : String :=
  s.namePrefix ++ "_action_" ++ symbol ++ "_" ++ toString expansion

/-- The type of parse tree nodes. -/
def nodeType (s : Settings) : String :=
  s.prefixed "node_t"

end Settings

end Descent
