import Descent.Proofs.CommandLine.Run

/-!
# What becomes of the input

A run writes to three paths, and the input may be at any of them. At the path of
the output it is copied first, as every file is that stands there. At the other
two paths nothing is kept of it. As long as neither of them leads to the input,
its text is still there after the run, in its place or in the backup
(`run_keepsInput`).
-/

namespace Descent.CommandLine

open FileTree Descent.Path

variable {t t' : FileTree} {o : Options} {output path : String} {p : Product}
  {result : Except Failure Unit} {location place : Location}
  {contents bytes : ByteArray}

/-- Neither the dump nor the backup goes to a location. The backup is made if the
output is there, which may be because of the dump. -/
structure Spares (t : FileTree) (o : Options) (output : String)
    (location : Location) : Prop where
  dump (h : o.dump = true) :
    t.target (withExtension output "grammar") ≠ .ok location
  backup (h : t.pathExists output = true ∨
      o.dump = true ∧ withExtension output "grammar" = output) :
    t.target (backup output) ≠ .ok location

/-- A path leads to a file, which has certain contents. -/
structure FoundAt (t : FileTree) (path : String) (location : Location)
    (contents : ByteArray) : Prop where
  resolve : t.resolve path = .ok location
  file : t.node? location = some (.file contents)

theorem FoundAt.holds (h : FoundAt t path location contents) :
    t.Holds path contents := ⟨location, h.resolve, h.file⟩

theorem FoundAt.put {other : String} (h : FoundAt t path location contents)
    (htarget : t.target other = .ok place) (hne : place ≠ location) :
    FoundAt (t.put place bytes) path location contents where
  resolve := resolve_put htarget h.resolve
  file := (node?_put_of_ne htarget hne.symm).trans h.file

theorem FoundAt.dumped (h : FoundAt t path location contents)
    (hspares : Spares t o output location) (hdump : Dumped o output p t t') :
    FoundAt t' path location contents := by
  rcases hdump.put_of with ⟨-, rfl⟩ | ⟨hasked, place, htarget, rfl⟩
  · exact h
  · exact h.put htarget fun heq => hspares.dump hasked (heq ▸ htarget)

/-- An output that is there after the dump was there before, or it is the dump. -/
theorem Dumped.exists_cases (hdump : Dumped o output p t t')
    (h : t'.pathExists output = true) :
    t.pathExists output = true ∨
      o.dump = true ∧ withExtension output "grammar" = output := by
  rcases hdump.put_of with ⟨-, rfl⟩ | ⟨hasked, place, htarget, rfl⟩
  · exact Or.inl h
  · refine (pathExists_put_cases htarget h).imp id ?_
    rintro ⟨parents, name, directory, hpieces, hname, rfl⟩
    exact ⟨hasked, withExtension_eq_self hpieces hname (by decide) htarget⟩

theorem FoundAt.backedUp {t₁ t₂ : FileTree} (h : FoundAt t₁ path location contents)
    (hspares : Spares t o output location) (hdump : Dumped o output p t t₁)
    (hbackup : BackedUp output t₁ t₂) : FoundAt t₂ path location contents := by
  rcases hbackup.put_of with ⟨-, rfl⟩ | ⟨hexists, _, copy, _, -, -, htarget, rfl⟩
  · exact h
  · refine h.put htarget fun heq => ?_
    subst heq
    exact hspares.backup (hdump.exists_cases hexists) (hdump.target.mp htarget)

theorem Stored.keepsInput (h : Stored o output p t result t')
    (hfound : FoundAt t path location contents)
    (hspares : Spares t o output location) :
    t'.Holds path contents ∨ t'.Holds (backup output) contents := by
  cases h with
  | dumpFailed => exact Or.inl hfound.holds
  | backupFailed hdump => exact Or.inl (hfound.dumped hspares hdump).holds
  | outputFailed hdump hbackup =>
      have hfound₁ := hfound.dumped hspares hdump
      exact Or.inl (hfound₁.backedUp hspares hdump hbackup).holds
  | stored hdump hbackup hwrite =>
      have hfound₁ := hfound.dumped hspares hdump
      obtain ⟨place, htarget, rfl⟩ := write_eq_ok_iff.mp hwrite
      by_cases heq : place = location
      · -- The input is overwritten, but as an output it has been copied before.
        subst heq
        exact Or.inr (hbackup.holds htarget hfound₁.file)
      · have hfound₂ := hfound₁.backedUp hspares hdump hbackup
        exact Or.inl (hfound₂.put htarget heq).holds

/-- Whether it fails or not, a run leaves the contents of its input where they
were or in the backup, provided that neither the dump nor the backup goes to the
input. -/
theorem run_keepsInput {arguments : List String}
    (hargs : Options.ofArguments arguments = some o)
    (hinput : t.resolve o.input = .ok location)
    (hfile : t.node? location = some (.file contents))
    (hspares : Spares t o (outputAt o location) location) :
    ((run access arguments).run t).2.Holds o.input contents ∨
      ((run access arguments).run t).2.Holds (backup (outputAt o location))
        contents := by
  have hfound : FoundAt t o.input location contents := ⟨hinput, hfile⟩
  have hrun := run_of_options (t := t) hargs
  generalize (run access arguments).run t = final at hrun
  obtain ⟨outcome, t'⟩ := final
  cases hrun with
  | stopped => exact Or.inl hfound.holds
  | stored hplace _ _ _ hstored =>
      obtain rfl := Except.ok.inj (hinput.symm.trans hplace)
      exact hstored.keepsInput hfound hspares

/-- The text of a small grammar. -/
def smallSource : String := "X = x\n%%\ns := X\n%%"

/-- A grammar under the name that its own output has. -/
def selfTree : FileTree where
  nodes := (∅ : Table Location Node).insert ["in.c"] (.file smallSource.toUTF8)
  workingDirectory := []

/-- The options of a run on it. -/
def selfOptions : Options := ⟨false, false, false, false, none, "in.c"⟩

theorem run_keepsInput_selfTree :
    Options.ofArguments ["in.c"] = some selfOptions ∧
      selfTree.resolve selfOptions.input = .ok ["in.c"] ∧
      selfTree.node? ["in.c"] = some (.file smallSource.toUTF8) ∧
      Spares selfTree selfOptions (outputAt selfOptions ["in.c"]) ["in.c"] ∧
      (((run access ["in.c"]).run selfTree).2.Holds selfOptions.input
          smallSource.toUTF8 ∨
        ((run access ["in.c"]).run selfTree).2.Holds
          (backup (outputAt selfOptions ["in.c"])) smallSource.toUTF8) := by
  have hspares : Spares selfTree selfOptions (outputAt selfOptions ["in.c"])
      ["in.c"] := ⟨by decide, fun _ => by decide +kernel⟩
  exact ⟨rfl, rfl, rfl, hspares, run_keepsInput rfl rfl rfl hspares⟩

/-- A grammar under the name of its dump. -/
def dumpedTree : FileTree where
  nodes := (∅ : Table Location Node).insert
    ["in.grammar"] (.file smallSource.toUTF8)
  workingDirectory := []

/-- A run on it that is to write the dump. -/
def dumpedRun : Outcome × FileTree :=
  (run access ["--dump", "in.grammar"]).run dumpedTree

/-- The grammar is gone after the run. -/
theorem not_holds_dumpedRun :
    dumpedTree.Holds "in.grammar" smallSource.toUTF8 ∧
      ¬ dumpedRun.2.Holds "in.grammar" smallSource.toUTF8 ∧
      ¬ dumpedRun.2.Holds (backup "/in.c") smallSource.toUTF8 := by
  refine ⟨⟨["in.grammar"], rfl, rfl⟩, ?_, ?_⟩
  · rintro ⟨location, hresolve, hfile⟩
    have hplace : dumpedRun.2.resolve "in.grammar" = .ok ["in.grammar"] := by
      decide +kernel
    obtain rfl := Except.ok.inj (hplace.symm.trans hresolve)
    have hsize : ((dumpedRun.2.node? ["in.grammar"]).map fun
        | .file contents => contents.size
        | .directory => 0) ≠ some smallSource.toUTF8.size := by decide +kernel
    exact hsize (by rw [hfile]; rfl)
  · rintro ⟨location, hresolve, -⟩
    have hnone : dumpedRun.2.resolve (backup "/in.c") = .error .notFound := by
      decide +kernel
    rw [hnone] at hresolve
    cases hresolve

end Descent.CommandLine
