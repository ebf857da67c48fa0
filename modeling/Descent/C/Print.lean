import Descent.C.OfParser
import Descent.Text.Lines

/-!
# The text of a C program

Every part of a program prints as a list of lines; a banner names each of the
five sections. The user code comes last and is copied as it stands, without a
newline of ours behind it.
-/

namespace Descent.C

open Text

/-- A line of stars. -/
def stars : String := String.ofList (List.replicate 77 '*')

/-- A comment that names a section. -/
def banner (heading : String) : List String :=
  ["", "/" ++ stars, " * " ++ centred 73 heading ++ " *", " " ++ stars ++ "/"]

/-- A pointer to a parse tree node. -/
def nodePointer (settings : Settings) : String := settings.nodeType ++ "*"

/-! ## Includes and token buffer -/

/-- The include directives. -/
def includeLines (settings : Settings) : List String :=
  ["", "#include <stdio.h>", "#include <stdlib.h>", "#include " ++ settings.lexerInclude]

/-- The type of nodes, the buffer for one token, and the functions that look at the next
token and consume it. -/
def bufferLines (settings : Settings) : List String :=
  let node := settings.prefixed "node"
  let next := settings.prefixed "next_token"
  let buffered := settings.prefixed "token_buffered"
  let peek := settings.prefixed "peek_next_token"
  let eat := settings.prefixed "eat_token"
  ["",
    "typedef struct " ++ node ++ " " ++ settings.nodeType ++ ";",
    "",
    "static " ++ settings.tokenType ++ " " ++ next ++ ";",
    "static " ++ settings.flagType ++ " " ++ buffered ++ " = 0;",
    "",
    "static " ++ settings.tokenType ++ " " ++ peek ++ "(void)",
    "\x7b",
    "\tif (!" ++ buffered ++ ") \x7b",
    "\t\t" ++ next ++ " = " ++ settings.lexerCall ++ ";",
    "\t\t" ++ buffered ++ " = 1;",
    "\t\x7d",
    "",
    "\treturn " ++ next ++ ";",
    "\x7d",
    "",
    "static " ++ settings.flagType ++ " " ++ eat ++ "(" ++ settings.tokenType ++
      " expected_token)",
    "\x7b",
    "\t" ++ settings.tokenType ++ " token = " ++ peek ++ "();",
    "",
    "\tif (token == expected_token) \x7b",
    "\t\t" ++ buffered ++ " = 0;",
    "\t\treturn 1;",
    "\t\x7d",
    "",
    "\treturn 0;",
    "\x7d"]

/-! ## Declarations -/

/-- The type of a parameter. -/
def ParameterType.text (settings : Settings) : ParameterType → String
  | .token => settings.tokenType
  | .node => nodePointer settings

/-- A parameter list; an empty one is written `void`. -/
def parameterText (settings : Settings) (parameters : List ParameterType) : String :=
  if parameters.isEmpty then
    "void"
  else
    ", ".intercalate (parameters.map (·.text settings))

/-- The prototype of a routine. -/
def routineLine (settings : Settings) (name : String) : String :=
  "static " ++ nodePointer settings ++ " " ++ name ++ "(void);"

/-- The prototype of a user action. -/
def Prototype.line (settings : Settings) (p : Prototype) : String :=
  nodePointer settings ++ " " ++ p.name ++ "(" ++ parameterText settings p.parameters ++ ");"

/-- The prototypes of the routines and then those of the user actions. -/
def declarationLines (program : Program) : List String :=
  [""] ++ program.routines.map (routineLine program.settings) ++
    [""] ++ program.actions.map (·.line program.settings)

/-! ## Functions -/

/-- The place of a slot. -/
def slotText (slot : Nat) : String := "nodes[" ++ toString slot ++ "]"

/-- What a call passes for a step. -/
def Argument.text : Argument → String
  | .value text => text
  | .node slot => slotText slot

/-- A call of a user action, whose result is returned. -/
def ActionCall.line (call : ActionCall) : String :=
  "\t\treturn " ++ call.name ++ "(" ++ ", ".intercalate (call.arguments.map Argument.text) ++
    ");"

/-- The condition under which a check fails. -/
def Check.failure (settings : Settings) : Check → String
  | .eat value => "!" ++ settings.prefixed "eat_token" ++ "(" ++ value ++ ")"
  | .fill slot routine => "!(" ++ slotText slot ++ " = " ++ routine ++ "())"

/-- A check. -/
def Check.lines (settings : Settings) (check : Check) : List String :=
  ["\t\tif (" ++ check.failure settings ++ ")", "\t\t\tgoto error;"]

/-- The labels, the checks and the action of a case. -/
def Case.lines (settings : Settings) (c : Case) : List String :=
  (c.labels.map fun label => "\tcase " ++ label ++ ":") ++
    c.checks.flatMap (·.lines settings) ++ [c.action.line, ""]

/-- The array of slots, where there are any. -/
def slotLines (settings : Settings) (slotCount : Nat) : List String :=
  if 0 < slotCount then
    ["\t" ++ nodePointer settings ++ " nodes[" ++ toString slotCount ++ "];"]
  else
    []

/-- What a function does when no case is selected. -/
def fallbackLine : Option ActionCall → String
  | some call => call.line
  | none => "\t\tgoto error;"

/-- A function. -/
def Function.lines (settings : Settings) (f : Function) : List String :=
  ["", "static " ++ nodePointer settings ++ " " ++ f.name ++ "(void)", "\x7b"] ++
    slotLines settings f.slotCount ++
    ["\t" ++ settings.tokenType ++ " token = " ++ settings.prefixed "peek_next_token" ++ "();",
      "", "\tswitch (token) \x7b"] ++
    f.cases.flatMap (·.lines settings) ++
    ["\tdefault:", fallbackLine f.fallback, "\t\x7d", "", "error:", "\treturn NULL;", "\x7d"]

/-- The entry point, which calls a routine. -/
def entryLines (settings : Settings) (routine : String) : List String :=
  ["", nodePointer settings ++ " " ++ settings.prefixed "parse" ++ "(void)", "\x7b",
    "\treturn " ++ routine ++ "();", "\x7d"]

/-! ## Programs -/

/-- All lines in front of the user code. -/
def Program.lines (program : Program) : List String :=
  banner "global includes" ++ includeLines program.settings ++
    banner "utility methods" ++ bufferLines program.settings ++
    banner "declarations" ++ declarationLines program ++
    banner "main automaton" ++ program.functions.flatMap (·.lines program.settings) ++
    program.entry.toList.flatMap (entryLines program.settings) ++
    banner "user code"

/-- The text of a program. -/
def Program.print (program : Program) : String :=
  unlines program.lines ++ program.userCode

/-- The text of the C program for a parser. -/
def render (p : Parser) : String :=
  (Program.ofParser p).print

end Descent.C
