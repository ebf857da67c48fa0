/-!
# What can go wrong

Errors are causes. A source can have the wrong number of sections, a grammar can
be ill-formed or ambiguous in a way that the caller asked to be fatal, and a file
can fail to be read or written. The texts shown to a user are functions of the
causes: `detail` says what happened, and `Error.message` says in front of it
which kind of error it is.
-/

namespace Descent

/-- Why a source is not a grammar file. -/
inductive ParseError
  /-- A grammar file has three sections; this source has another number of them. -/
  | sections (found : Nat)
deriving DecidableEq

/-- The number of sections of a grammar file. -/
def sectionCount : Nat := 3

/-- The text of a parse error. -/
def ParseError.detail : ParseError → String
  | .sections found =>
    "expected " ++ toString sectionCount ++ " sections but found " ++ toString found

/-- Two expansions of a symbol that the same terminal predicts, by index. -/
structure Conflict where
  symbol : String
  /-- The terminal's name. -/
  terminal : String
  /-- The expansion that the terminal selects. -/
  kept : Nat
  /-- The expansion that it would have selected as well. -/
  shadowed : Nat
deriving DecidableEq

/-- Why a grammar is refused. -/
inductive GrammarError
  /-- A terminal has expansions. -/
  | expansionForTerminal (name : String)
  /-- An expansion mentions a name that nothing defines. -/
  | undefined (name : String)
  /-- The start symbol that was asked for does not exist. -/
  | unknownStart (name : String)
  /-- Two expansions conflict, and conflicts are not allowed. -/
  | conflict (conflict : Conflict)
deriving DecidableEq

/-- A name between the quotation marks of messages. -/
def inQuotes (name : String) : String := "`" ++ name ++ "'"

/-- The statement that a terminal predicts two expansions. -/
def Conflict.statement (c : Conflict) : String :=
  inQuotes c.terminal ++ " predicts both expansion " ++ toString c.kept ++
    " and expansion " ++ toString c.shadowed ++ " of " ++ inQuotes c.symbol

/-- The text of a grammar error. -/
def GrammarError.detail : GrammarError → String
  | .expansionForTerminal name => "expansion for terminal " ++ inQuotes name
  | .undefined name => inQuotes name ++ " is not defined as a terminal or nonterminal"
  | .unknownStart name => "unknown start symbol: " ++ inQuotes name
  | .conflict c => c.statement

/-- The name at fault; for a conflict, the symbol's. -/
def GrammarError.name : GrammarError → String
  | .expansionForTerminal name => name
  | .undefined name => name
  | .unknownStart name => name
  | .conflict c => c.symbol

/-- Why a file operation fails. -/
inductive FileError
  /-- There is nothing at the path. -/
  | notFound
  /-- The path goes on below something that is no directory. -/
  | notADirectory
  /-- There is a directory where a file is wanted. -/
  | isADirectory
  /-- A name on the path, or the whole path, is too long. -/
  | nameTooLong
  /-- The file to copy is no regular file. -/
  | notRegular
  /-- The contents are not UTF-8. -/
  | notText
  /-- Anything else, in the words of the system. -/
  | other (text : String)
deriving DecidableEq

/-- The text of a file error. -/
def FileError.detail : FileError → String
  | .notFound => "No such file or directory (os error 2)"
  | .notADirectory => "Not a directory (os error 20)"
  | .isADirectory => "Is a directory (os error 21)"
  | .nameTooLong => "File name too long (os error 36)"
  | .notRegular =>
    "the source path is neither a regular file nor a symlink to a regular file"
  | .notText => "stream did not contain valid UTF-8"
  | .other text => text

/-- Any error on the way from a file to a parser. -/
inductive Error
  | file (error : FileError)
  | parse (error : ParseError)
  | grammar (error : GrammarError)
deriving DecidableEq

/-- What happened, without the kind of error. -/
def Error.detail : Error → String
  | .file e => e.detail
  | .parse e => e.detail
  | .grammar e => e.detail

/-- The kind of error and what happened. -/
def Error.message : Error → String
  | .file e => "parsegen: io error: " ++ e.detail
  | .parse e => "parsegen: parse error: " ++ e.detail
  | .grammar e => "parsegen: grammar error: " ++ e.detail

end Descent
