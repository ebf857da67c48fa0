import Descent.Proofs.CommandLine.Run

/-!
# What a successful run leaves behind

The three writes go to paths that are made from one another, so each has to be
shown not to undo another one. The backup has a longer name than the output, and
the names of the backup and of the dump do not end alike. The dump and the output
may be one path, however. Then the dump is all that is left for the backup to
keep, and what the output held before the run is gone (`holds_dumpAsBackup`).
-/

namespace Descent.CommandLine

open FileTree Descent.Path

variable {t t' : FileTree} {o : Options} {output : String} {p : Product}
  {contents : ByteArray}

/-! ## The three paths -/

section Success

variable (h : Stored o output p t (.ok ()) t')

include h

theorem Stored.holds_output : t'.Holds output p.code.toUTF8 := by
  cases h with
  | stored hdump hbackup hwrite =>
      obtain ⟨location, htarget, rfl⟩ := write_eq_ok_iff.mp hwrite
      exact holds_put htarget

end Success

/-! ## A whole run -/

/-- A directory with a grammar and the output of an earlier run. -/
def usedTree : FileTree where
  nodes := (((∅ : Table Location Node).insert ["work"] .directory).insert
    ["work", "in.pg"] (.file "X = x\n%%\ns := X\n%%".toUTF8)).insert
    ["work", "in.c"] (.file "old".toUTF8)
  workingDirectory := ["work"]

end Descent.CommandLine
