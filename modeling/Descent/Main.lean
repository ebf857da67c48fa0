import Descent.CommandLine.Run

/-!
# The program

The command line on the real file system. Everything that is decided is decided
in `CommandLine.run`; here its file operations are carried out.
-/

namespace Descent.CommandLine

/-- The number of an error of the system; some operations give it with the sign changed. -/
def errorNumber (code : UInt32) : UInt32 := min code (0 - code)

/-- The cause that an error of the system stands for. -/
def causeOf (e : IO.Error) : FileError :=
  match e with
  | .noFileOrDirectory .. => .notFound
  | .inappropriateType _ code _ =>
    match errorNumber code with
    | 20 => .notADirectory
    | 21 => .isADirectory
    | _ => .other e.toString
  | .invalidArgument _ code _ =>
    match errorNumber code with
    | 36 => .nameTooLong
    | _ => .other e.toString
  | _ => .other e.toString

/-- Carries out an action and turns its failure into a value. -/
def attempt {α : Type} (action : IO α) : IO (Except FileError α) := do
  match ← action.toBaseIO with
  | .ok a => return .ok a
  | .error e => return .error (causeOf e)

/-- The absolute path of something that exists. Resolving a path does not say why there is
nothing, but opening it does. -/
def absolutePath (path : String) : IO (Except FileError String) := do
  match ← attempt (IO.FS.realPath path) with
  | .ok found => return .ok found.toString
  | .error e =>
    match ← attempt (IO.FS.Handle.mk path .read) with
    | .ok _ => return .error e
    | .error cause => return .error cause

/-- Reads a file that is to be copied. -/
def readRegular (path : String) : IO (Except FileError ByteArray) := do
  match ← attempt (IO.FS.readBinFile path) with
  | .error .isADirectory => return .error .notRegular
  | result => return result

/-- The operations of the real file system. -/
def systemFiles : FileAccess IO where
  canonical path := absolutePath path
  read path := attempt (IO.FS.readBinFile path)
  pathExists path := do
    return path.utf8ByteSize ≤ Path.limit && (← attempt (IO.FS.realPath path)).isOk
  copy source target := do
    match ← readRegular source with
    | .error e => return .error e
    | .ok contents => attempt (IO.FS.writeBinFile target contents)
  write path contents := attempt (IO.FS.writeBinFile path contents)

end Descent.CommandLine

/-- Runs the command line and reports its outcome. -/
def main (arguments : List String) : IO UInt32 := do
  let outcome ← Descent.CommandLine.run Descent.CommandLine.systemFiles arguments
  IO.print outcome.stdout
  IO.eprint outcome.stderr
  return outcome.exitCode.toUInt32
