import Descent.Analysis.State
import Descent.Parser.Basic

/-!
# The options of the command line

The arguments are four flags, an output path and one input path, in any order.
The value of the output option stands in the same argument or in the next one,
which then must not look like an option. Behind two hyphens everything is an
input. Nothing may be given twice and no path may be empty.
-/

namespace Descent

/-- What the command line asks for. -/
structure Options where
  /-- Compute FOLLOW sets too. -/
  follow : Bool
  /-- Let a conflict be an error. -/
  denyConflicts : Bool
  /-- Write a dump of the analyzed grammar. -/
  dump : Bool
  /-- Accepted for the sake of callers; the output is laid out the same either way. -/
  format : Bool
  output : Option String
  input : String
deriving DecidableEq

namespace Options

/-- The mode of the analysis. -/
def mode (o : Options) : Mode := if o.follow then .follow else .firstOnly

/-- What becomes of conflicts. -/
def policy (o : Options) : ConflictPolicy := if o.denyConflicts then .deny else .warn

end Options

/-! ## Arguments -/

/-- What a single argument is. -/
inductive Argument
  | follow
  | denyConflicts
  | dump
  | format
  /-- The output option, with its value if that is in the same argument. -/
  | output (value : Option String)
  | endOfOptions
  | path (path : String)
  | unknown
deriving DecidableEq

namespace Argument

/-- What stands behind some characters, if a text begins with them. -/
def behind? (start : String) (text : String) : Option String :=
  if start.toList.isPrefixOf text.toList then
    some (.ofList (text.toList.drop start.length))
  else
    none

/-- Whether a text looks like an option. A hyphen alone does not. -/
def looksLikeOption (text : String) : Bool :=
  text != "-" && (behind? "-" text).isSome

/-- Classifies an argument. -/
def ofText (text : String) : Argument :=
  if !looksLikeOption text then
    .path text
  else if text = "--" then
    .endOfOptions
  else if text = "--follow" then
    .follow
  else if text = "--deny-conflicts" then
    .denyConflicts
  else if text = "--dump" then
    .dump
  else if text = "--format" then
    .format
  else if text = "--output" ∨ text = "-o" then
    .output none
  else
    match ((behind? "--output=" text).or (behind? "-o=" text)).or (behind? "-o" text) with
    | some value => .output (some value)
    | none => .unknown

end Argument

/-! ## Reading the arguments -/

namespace Options

/-- What has been read of the arguments so far. -/
structure Draft where
  follow : Bool := false
  denyConflicts : Bool := false
  dump : Bool := false
  format : Bool := false
  output : Option String := none
  input : Option String := none
deriving DecidableEq

namespace Draft

/-- Sets the output path, which must be the first and not empty. -/
def setOutput (d : Draft) (path : String) : Option Draft :=
  if d.output.isSome || path.isEmpty then none else some { d with output := some path }

/-- Sets the input path, which must be the first and not empty. -/
def setInput (d : Draft) (path : String) : Option Draft :=
  if d.input.isSome || path.isEmpty then none else some { d with input := some path }

/-- Sets a flag, which must not be set already; other arguments set nothing. -/
def setFlag (d : Draft) : Argument → Option Draft
  | .follow => if d.follow then none else some { d with follow := true }
  | .denyConflicts => if d.denyConflicts then none else some { d with denyConflicts := true }
  | .dump => if d.dump then none else some { d with dump := true }
  | .format => if d.format then none else some { d with format := true }
  | _ => none

/-- Reads arguments that are all inputs. -/
def readInputs (d : Draft) : List String → Option Draft
  | [] => some d
  | path :: rest => (d.setInput path).bind fun d => d.readInputs rest

/-- Reads arguments. -/
def read (d : Draft) : List String → Option Draft
  | [] => some d
  | text :: rest =>
    match Argument.ofText text with
    | .path path => (d.setInput path).bind fun d => d.read rest
    | .endOfOptions => d.readInputs rest
    | .output (some value) => (d.setOutput value).bind fun d => d.read rest
    | .output none =>
      match rest with
      | [] => none
      | value :: rest =>
        if Argument.looksLikeOption value then
          none
        else
          (d.setOutput value).bind fun d => d.read rest
    | flag => (d.setFlag flag).bind fun d => d.read rest

end Draft

/-- Reads the arguments of a command line; `none` when they are wrong. -/
def ofArguments (arguments : List String) : Option Options :=
  match Draft.read {} arguments with
  | none => none
  | some d =>
    d.input.map fun input =>
      { follow := d.follow
        denyConflicts := d.denyConflicts
        dump := d.dump
        format := d.format
        output := d.output
        input := input }

end Options

end Descent
