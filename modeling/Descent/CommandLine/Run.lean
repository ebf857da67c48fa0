import Descent.C.Print
import Descent.CommandLine.FileTree
import Descent.CommandLine.Options
import Descent.Grammar.Dump
import Descent.Grammar.Load
import Descent.Text.Quoted

/-!
# Running the command line

A run reads the input, makes all texts in memory, and only then writes: first the
dump if one is asked for, then a copy of an output that is there already, then the
output. It stops at the first thing that fails.

What a run does to files goes through `FileAccess`, so the same run works on a
`FileTree` and on a real file system.
-/

namespace Descent

/-- The file operations that a run needs. -/
structure FileAccess (m : Type → Type) where
  /-- The absolute path of something that exists. -/
  canonical : String → m (Except FileError String)
  read : String → m (Except FileError ByteArray)
  pathExists : String → m Bool
  copy : String → String → m (Except FileError Unit)
  write : String → ByteArray → m (Except FileError Unit)

/-- The operations on a tree of files. -/
def FileTree.access : FileAccess (StateM FileTree) where
  canonical path := do
    return ((← get).resolve path).map FileTree.pathOf
  read path := do
    return (← get).read path
  pathExists path := do
    return (← get).pathExists path
  copy source target := do
    match (← get).copy source target with
    | .ok tree => set tree; return .ok ()
    | .error e => return .error e
  write path contents := do
    match (← get).write path contents with
    | .ok tree => set tree; return .ok ()
    | .error e => return .error e

namespace CommandLine

/-! ## Failures -/

/-- Why a run fails. -/
inductive Failure
  /-- The input does not exist. -/
  | noInput (error : FileError)
  /-- The input cannot be read as text. -/
  | unreadable (error : FileError)
  /-- The input is not the grammar of a parser. -/
  | refused (error : Error)
  /-- The dump cannot be written to a path. -/
  | dumpFailed (path : String) (error : FileError)
  /-- An earlier output cannot be copied to a path. -/
  | backupFailed (path : String) (error : FileError)
  /-- The output cannot be written to a path. -/
  | outputFailed (path : String) (error : FileError)
deriving DecidableEq

namespace Failure

/-- What was being done. -/
def context : Failure → String
  | .noInput _ => "failed to canonicalize the input file name"
  | .unreadable _ => "failed to read the grammar file"
  | .refused e => e.message
  | .dumpFailed path _ => "failed to write the analyzed grammar to " ++ path
  | .backupFailed path _ => "failed to backup the output file to " ++ path
  | .outputFailed path _ => "failed to write generated parser to " ++ path

/-- What went wrong there. -/
def cause : Failure → String
  | .noInput e => e.detail
  | .unreadable e => e.detail
  | .refused e => e.detail
  | .dumpFailed _ e => e.detail
  | .backupFailed _ e => e.detail
  | .outputFailed _ e => e.detail

/-- Indents the lines of a text but the first. -/
def indent (text : String) : String :=
  "\n       ".intercalate ((text.toList.splitOnP (· == '\n')).map .ofList)

/-- What is printed about a failure. -/
def report (f : Failure) (input : String) : String :=
  Text.unlines
    ["Error: errored during processing " ++ input, "", "Caused by:",
      "    0: " ++ indent f.context, "    1: " ++ indent f.cause]

end Failure

/-! ## What is made of a source -/

/-- Everything that a run makes in memory. -/
structure Product where
  /-- The dump of the analyzed grammar. -/
  dump : String
  /-- The generated code. -/
  code : String
  /-- The expansions that can never be selected. -/
  neverSelected : List String
deriving DecidableEq

/-- The product of an analyzed grammar and its parser. -/
def Product.ofParser (g : Grammar) (p : Parser) : Product :=
  ⟨g.dump, C.render p, p.neverSelected⟩

/-- Makes a product from a source. -/
def Product.ofSource (o : Options) (source : String) : Except Error Product :=
  match Grammar.load (some o.mode) source with
  | .error e => .error e
  | .ok g =>
    match Parser.build g (.ofHeader g.header) o.policy with
    | .error e => .error (.grammar e)
    | .ok p => .ok (.ofParser g p)

/-- The warning about expansions that can never be selected, where there are any. -/
def Product.warning (p : Product) : String :=
  if p.neverSelected.isEmpty then
    ""
  else
    "[warning] The following expansions can never be selected: " ++
      Text.quotedList p.neverSelected ++ "\n"

/-! ## Runs -/

/-- What is seen of a run from outside, its files aside. -/
structure Outcome where
  exitCode : Nat
  stdout : String
  stderr : String
deriving DecidableEq

/-- The outcome of a command line that makes no sense. -/
def Outcome.usage : Outcome := ⟨2, "", "usage"⟩

/-- The outcome of a run that printed something and then failed or not. -/
def Outcome.of (input stdout : String) : Except Failure Unit → Outcome
  | .ok _ => ⟨0, stdout, ""⟩
  | .error f => ⟨1, stdout, f.report input⟩

section Run

variable {m : Type → Type} [Monad m]

/-- Writes the dump, if one is asked for. -/
def writeDump (files : FileAccess m) (o : Options) (output : String) (p : Product) :
    m (Except Failure Unit) :=
  if o.dump then do
    let path := Path.withExtension output "grammar"
    return (← files.write path p.dump.toUTF8).mapError (.dumpFailed path)
  else
    return .ok ()

/-- Copies the output, if there is one. -/
def keepBackup (files : FileAccess m) (output : String) : m (Except Failure Unit) := do
  if ← files.pathExists output then
    return (← files.copy output (Path.backup output)).mapError
      (.backupFailed (Path.backup output))
  else
    return .ok ()

/-- Writes the output. -/
def writeOutput (files : FileAccess m) (output : String) (p : Product) :
    m (Except Failure Unit) := do
  return (← files.write output p.code.toUTF8).mapError (.outputFailed output)

/-- Writes everything that there is to write. -/
def store (files : FileAccess m) (o : Options) (output : String) (p : Product) :
    m (Except Failure Unit) := do
  match ← writeDump files o output p with
  | .error f => return .error f
  | .ok _ =>
    match ← keepBackup files output with
    | .error f => return .error f
    | .ok _ => writeOutput files output p

/-- The text of the input, or why there is none. -/
def readInput (files : FileAccess m) (path : String) : m (Except Failure String) := do
  match ← files.read path with
  | .error e => return .error (.unreadable e)
  | .ok bytes =>
    match String.fromUTF8? bytes with
    | none => return .error (.unreadable .notText)
    | some source => return .ok source

/-- Runs with options. -/
def process (files : FileAccess m) (o : Options) : m Outcome := do
  match ← files.canonical o.input with
  | .error e => return .of o.input "" (.error (.noInput e))
  | .ok path =>
    match ← readInput files path with
    | .error f => return .of o.input "" (.error f)
    | .ok source =>
      match Product.ofSource o source with
      | .error e => return .of o.input "" (.error (.refused e))
      | .ok product =>
        let output := o.output.getD (Path.withExtension path "c")
        return .of o.input product.warning (← store files o output product)

/-- Runs with arguments. -/
def run (files : FileAccess m) (arguments : List String) : m Outcome :=
  match Options.ofArguments arguments with
  | none => return .usage
  | some o => process files o

end Run

end CommandLine

end Descent
