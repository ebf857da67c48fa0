import Descent.Analysis.Basic
import Descent.File.Basic

/-!
# Loading a grammar

A source is read and then analyzed in a mode, or left as it is when no mode is
given. A file's contents are bytes, which have to be UTF-8.
-/

namespace Descent.Grammar

/-- Reads a source, and analyzes the grammar if a mode is given. -/
def load (mode : Option Mode) (source : String) : Except Error Grammar :=
  match Grammar.parse source with
  | .error e => .error (.parse e)
  | .ok g =>
    match mode with
    | none => .ok g
    | some mode => (g.analyze mode).mapError .grammar

/-- Loads a grammar from the contents of a file; `none` stands for a file that does not
exist. -/
def ofFile (mode : Mode) (contents : Option ByteArray) : Except Error Grammar :=
  match contents with
  | none => .error (.file .notFound)
  | some bytes =>
    match String.fromUTF8? bytes with
    | none => .error (.file .notText)
    | some source => load (some mode) source

end Descent.Grammar
