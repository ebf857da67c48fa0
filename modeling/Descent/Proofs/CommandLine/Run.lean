import Descent.CommandLine.Run
import Descent.Proofs.CommandLine.FileTree

/-!
# What a run does to a tree of files

Only three operations of a run change the tree, and each is a write to one path.
The relations `Dumped`, `BackedUp` and `Stored` say what they may do, one case for
each way that they end, and a run does nothing else (`run_process`). What they
write where is in `Dumped.put_of` and `BackedUp.put_of`.
-/

namespace Descent.CommandLine

open FileTree Descent.Path

variable {t t' : FileTree} {o : Options} {output path : String} {p : Product}
  {location : Location}

/-! ## The three writes -/

/-- The dump is written if it is asked for. -/
inductive Dumped (o : Options) (output : String) (p : Product) (t : FileTree) :
    FileTree → Prop
  | written {t' : FileTree} (h : o.dump = true)
      (hwrite : t.write (withExtension output "grammar") p.dump.toUTF8 =
        .ok t') : Dumped o output p t t'
  | skipped (h : o.dump = false) : Dumped o output p t t

/-- An output that is there is copied. -/
inductive BackedUp (output : String) (t : FileTree) : FileTree → Prop
  | copied {t' : FileTree} (h : t.pathExists output = true)
      (hcopy : t.copy output (backup output) = .ok t') : BackedUp output t t'
  | absent (h : t.pathExists output = false) : BackedUp output t t

/-- How far the writes get. -/
inductive Stored (o : Options) (output : String) (p : Product) (t : FileTree) :
    Except Failure Unit → FileTree → Prop
  | dumpFailed (f : Failure) : Stored o output p t (.error f) t
  | backupFailed {t₁ : FileTree} (hdump : Dumped o output p t t₁) (f : Failure) :
      Stored o output p t (.error f) t₁
  | outputFailed {t₁ t₂ : FileTree} (hdump : Dumped o output p t t₁)
      (hbackup : BackedUp output t₁ t₂) (f : Failure) :
      Stored o output p t (.error f) t₂
  | stored {t₁ t₂ t₃ : FileTree} (hdump : Dumped o output p t t₁)
      (hbackup : BackedUp output t₁ t₂)
      (hwrite : t₂.write output p.code.toUTF8 = .ok t₃) :
      Stored o output p t (.ok ()) t₃

theorem run_bind {α β : Type} (x : StateM FileTree α) (f : α → StateM FileTree β)
    (t : FileTree) : (x >>= f).run t = (f (x.run t).1).run (x.run t).2 := rfl

theorem run_get (t : FileTree) :
    (get : StateM FileTree FileTree).run t = (t, t) := rfl

theorem run_pure {α : Type} (a : α) (t : FileTree) :
    (pure a : StateM FileTree α).run t = (a, t) := rfl

theorem run_write (path : String) (contents : ByteArray) (t : FileTree) :
    (access.write path contents).run t =
      match t.write path contents with
      | .ok t' => (.ok (), t')
      | .error e => (.error e, t) := by
  simp only [access, run_bind, run_get]
  cases t.write path contents <;> rfl

theorem run_copy (source target : String) (t : FileTree) :
    (access.copy source target).run t =
      match t.copy source target with
      | .ok t' => (.ok (), t')
      | .error e => (.error e, t) := by
  simp only [access, run_bind, run_get]
  cases t.copy source target <;> rfl

theorem run_pathExists (path : String) (t : FileTree) :
    (access.pathExists path).run t = (t.pathExists path, t) := rfl

theorem run_read (path : String) (t : FileTree) :
    (access.read path).run t = (t.read path, t) := rfl

theorem run_canonical (path : String) (t : FileTree) :
    (access.canonical path).run t = ((t.resolve path).map pathOf, t) := rfl

theorem run_writeDump :
    (∃ f, (writeDump access o output p).run t = (.error f, t)) ∨
      ∃ t', (writeDump access o output p).run t = (.ok (), t') ∧
        Dumped o output p t t' := by
  unfold writeDump
  split
  · next hdump =>
      simp only [run_bind, run_write, run_pure]
      cases hwrite : t.write (withExtension output "grammar") p.dump.toUTF8 with
      | error e => exact Or.inl ⟨_, rfl⟩
      | ok t' => exact Or.inr ⟨t', rfl, .written hdump hwrite⟩
  · next hdump => exact Or.inr ⟨t, rfl, .skipped (by simpa using hdump)⟩

theorem run_keepBackup :
    (∃ f, (keepBackup access output).run t = (.error f, t)) ∨
      ∃ t', (keepBackup access output).run t = (.ok (), t') ∧
        BackedUp output t t' := by
  simp only [keepBackup, run_bind]
  split
  · next hexists =>
      simp only [run_bind, run_pathExists, run_copy, run_pure]
      cases hcopy : t.copy output (backup output) with
      | error e => exact Or.inl ⟨_, rfl⟩
      | ok t' => exact Or.inr ⟨t', rfl, .copied hexists hcopy⟩
  · next habsent =>
      rw [run_pathExists, Bool.not_eq_true] at habsent
      exact Or.inr ⟨t, rfl, .absent habsent⟩

theorem run_writeOutput :
    (∃ f, (writeOutput access output p).run t = (.error f, t)) ∨
      ∃ t', (writeOutput access output p).run t = (.ok (), t') ∧
        t.write output p.code.toUTF8 = .ok t' := by
  simp only [writeOutput, run_bind, run_write, run_pure]
  cases hwrite : t.write output p.code.toUTF8 with
  | error e => exact Or.inl ⟨_, rfl⟩
  | ok t' => exact Or.inr ⟨t', rfl, rfl⟩

theorem run_store : Stored o output p t ((store access o output p).run t).1
    ((store access o output p).run t).2 := by
  simp only [store, run_bind]
  rcases run_writeDump (o := o) (t := t) with ⟨f, hrun⟩ | ⟨t₁, hrun, hdump⟩
  · rw [hrun]
    exact .dumpFailed f
  rw [hrun]
  simp only [run_bind]
  rcases run_keepBackup (t := t₁) with ⟨f, hrun⟩ | ⟨t₂, hrun, hbackup⟩
  · rw [hrun]
    exact .backupFailed hdump f
  rw [hrun]
  show Stored o output p t ((writeOutput access output p).run t₂).1
    ((writeOutput access output p).run t₂).2
  rcases run_writeOutput (t := t₂) with ⟨f, hrun⟩ | ⟨t₃, hrun, hwrite⟩
  · rw [hrun]
    exact .outputFailed hdump hbackup f
  · rw [hrun]
    exact .stored hdump hbackup hwrite

/-! ## What the first two writes change -/

theorem Dumped.put_of (h : Dumped o output p t t') :
    o.dump = false ∧ t' = t ∨ o.dump = true ∧
      ∃ location, t.target (withExtension output "grammar") = .ok location ∧
        t' = t.put location p.dump.toUTF8 := by
  cases h with
  | written hdump hwrite => exact Or.inr ⟨hdump, write_eq_ok_iff.mp hwrite⟩
  | skipped hdump => exact Or.inl ⟨hdump, rfl⟩

theorem BackedUp.put_of (h : BackedUp output t t') :
    t.pathExists output = false ∧ t' = t ∨ t.pathExists output = true ∧
      ∃ place location contents, t.locate output = .ok place ∧
        t.node? place = some (.file contents) ∧
        t.target (backup output) = .ok location ∧ t' = t.put location contents := by
  cases h with
  | absent habsent => exact Or.inl ⟨habsent, rfl⟩
  | copied hexists hcopy =>
      obtain ⟨contents, hread, hwrite⟩ := copy_eq_ok hcopy
      obtain ⟨place, hlocate, hfile⟩ := read_eq_ok_iff.mp hread
      obtain ⟨location, htarget, heq⟩ := write_eq_ok_iff.mp hwrite
      exact Or.inr ⟨hexists, place, location, contents, hlocate, hfile, htarget, heq⟩

theorem Dumped.target (h : Dumped o output p t t') :
    t'.target path = .ok location ↔ t.target path = .ok location := by
  rcases h.put_of with ⟨-, rfl⟩ | ⟨-, place, htarget, rfl⟩
  · rfl
  · exact target_put htarget

theorem BackedUp.target (h : BackedUp output t t') :
    t'.target path = .ok location ↔ t.target path = .ok location := by
  rcases h.put_of with ⟨-, rfl⟩ | ⟨-, _, place, _, -, -, htarget, rfl⟩
  · rfl
  · exact target_put htarget

/-- What the output holds when it is copied is in the backup in the end. -/
theorem BackedUp.holds {t₁ t₂ : FileTree} {contents bytes : ByteArray}
    (h : BackedUp output t₁ t₂) (htarget : t₂.target output = .ok location)
    (hfile : t₁.node? location = some (.file contents)) :
    (t₂.put location bytes).Holds (backup output) contents := by
  have htarget₁ := h.target.mp htarget
  have hlocate := locate_of_target htarget₁ hfile
  rcases h.put_of with
    ⟨habsent, -⟩ | ⟨-, place, copy, found, hplace, hfound, hcopy, rfl⟩
  · rw [pathExists_iff.mpr ⟨_, hlocate⟩] at habsent
    cases habsent
  · obtain rfl : location = place := Except.ok.inj (hlocate.symm.trans hplace)
    obtain rfl : contents = found := by simpa [hfile] using hfound
    exact holds_put_of_ne htarget (h.target.mpr hcopy) (backup_ne hcopy htarget₁)
      (node?_put_self hcopy)

/-! ## A whole run -/

/-- The path of the output when the input is at a location. -/
def outputAt (o : Options) (location : Location) : String :=
  o.output.getD (withExtension (pathOf location) "c")

/-- A run either stops before it writes anything, or it has made a product of the
input. -/
inductive Processed (o : Options) (t : FileTree) : Outcome → FileTree → Prop
  | stopped {outcome : Outcome} (h : outcome.exitCode ≠ 0) :
      Processed o t outcome t
  | stored {location : Location} {bytes : ByteArray} {source : String}
      {p : Product} {result : Except Failure Unit} {t' : FileTree}
      (hinput : t.resolve o.input = .ok location)
      (hread : t.read (pathOf location) = .ok bytes)
      (htext : String.fromUTF8? bytes = some source)
      (hproduct : Product.ofSource o source = .ok p)
      (hstored : Stored o (outputAt o location) p t result t') :
      Processed o t (.of o.input p.warning result) t'

theorem run_readInput (path : String) (t : FileTree) :
    (∃ f, (readInput access path).run t = (.error f, t)) ∨
      ∃ bytes source, (readInput access path).run t = (.ok source, t) ∧
        t.read path = .ok bytes ∧ String.fromUTF8? bytes = some source := by
  simp only [readInput, run_bind, run_read]
  cases hread : t.read path with
  | error e => exact Or.inl ⟨_, rfl⟩
  | ok bytes =>
      cases htext : String.fromUTF8? bytes with
      | none =>
          simp only [htext]
          exact Or.inl ⟨_, rfl⟩
      | some source =>
          simp only [htext]
          exact Or.inr ⟨bytes, source, rfl, rfl, htext⟩

theorem run_process : Processed o t ((process access o).run t).1
    ((process access o).run t).2 := by
  simp only [process, run_bind, run_canonical]
  cases hinput : t.resolve o.input with
  | error e => exact .stopped Nat.one_ne_zero
  | ok location =>
      simp only [Except.map, run_bind]
      rcases run_readInput (pathOf location) t with
        ⟨f, hrun⟩ | ⟨bytes, source, hrun, hread, htext⟩
      · rw [hrun]
        exact .stopped Nat.one_ne_zero
      rw [hrun]
      cases hproduct : Product.ofSource o source with
      | error e =>
          simp only [hproduct]
          exact .stopped Nat.one_ne_zero
      | ok p =>
          have hstored : Stored o (outputAt o location) p t
              ((store access o (outputAt o location) p).run t).1
              ((store access o (outputAt o location) p).run t).2 := run_store
          simp only [hproduct, run_bind, run_pure]
          exact .stored hinput hread htext hproduct hstored

theorem ofSource_eq_ok {source : String} (h : Product.ofSource o source = .ok p) :
    ∃ g parser, Grammar.load (some o.mode) source = .ok g ∧
      Parser.build g (.ofHeader g.header) o.policy = .ok parser ∧
      p = .ofParser g parser := by
  unfold Product.ofSource at h
  split at h
  · cases h
  · next g hload =>
      split at h
      · cases h
      · next parser hbuild =>
          injection h with h
          exact ⟨g, parser, hload, hbuild, h.symm⟩

theorem run_of_options {arguments : List String}
    (h : Options.ofArguments arguments = some o) :
    Processed o t ((run access arguments).run t).1 ((run access arguments).run t).2 := by
  rw [run, h]
  exact run_process

/-- A run that succeeds has made a product of its input, has stored it, and has printed the
product's warning. -/
theorem stored_of_exitCode {arguments : List String}
    (hcode : ((run access arguments).run t).1.exitCode = 0) :
    ∃ o location bytes source p,
      Options.ofArguments arguments = some o ∧
      t.resolve o.input = .ok location ∧
      t.read (pathOf location) = .ok bytes ∧
      String.fromUTF8? bytes = some source ∧
      Product.ofSource o source = .ok p ∧
      Stored o (outputAt o location) p t (.ok ()) ((run access arguments).run t).2 ∧
      ((run access arguments).run t).1 = ⟨0, p.warning, ""⟩ := by
  cases hargs : Options.ofArguments arguments with
  | none =>
      rw [run, hargs] at hcode
      cases hcode
  | some o =>
      have hrun := run_of_options (t := t) hargs
      generalize (run access arguments).run t = final at hcode hrun ⊢
      obtain ⟨outcome, t'⟩ := final
      cases hrun with
      | stopped hstopped => exact absurd hcode hstopped
      | @stored location bytes source p result _ hinput hread htext hproduct hstored =>
          cases result with
          | error f => cases hcode
          | ok _ =>
              exact ⟨o, location, bytes, source, p, rfl, hinput, hread, htext, hproduct,
                hstored, rfl⟩

end Descent.CommandLine
