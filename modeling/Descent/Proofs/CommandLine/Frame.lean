import Descent.Proofs.CommandLine.Outputs

/-!
# What a run leaves alone

Everything that can go wrong with the input goes wrong before the first write, so a
run that is refused leaves the tree as it found it (`run_of_refused`). After that each
of the three writes changes one location only, the one that its path leads to
(`Dumped.changed`, `BackedUp.changed`, `written_changed`). No write changes where the
path of another one leads, so these locations can all be read off the tree that the
run began with.
-/

namespace Descent.CommandLine

open FileTree Descent.Path

variable {t t' : FileTree} {o : Options} {output : String} {p : Product}
  {place : Location} {f : Failure}

/-! ## Runs that are refused -/

/-- The input is at a location, and a source is its text. -/
structure Reads (t : FileTree) (o : Options) (location : Location) (source : String) :
    Prop where
  resolve : t.resolve o.input = .ok location
  text : ∃ bytes, t.read (pathOf location) = .ok bytes ∧
    String.fromUTF8? bytes = some source

/-- Why a run fails before there is anything to write. -/
inductive Refused (t : FileTree) (o : Options) : Failure → Prop
  | noInput {e : FileError} (h : t.resolve o.input = .error e) : Refused t o (.noInput e)
  | unreadable {location : Location} {e : FileError} (hinput : t.resolve o.input = .ok location)
      (h : t.read (pathOf location) = .error e) : Refused t o (.unreadable e)
  | notText {location : Location} {bytes : ByteArray}
      (hinput : t.resolve o.input = .ok location)
      (hread : t.read (pathOf location) = .ok bytes) (h : String.fromUTF8? bytes = none) :
      Refused t o (.unreadable .notText)
  | parsing {location : Location} {source : String} {e : ParseError}
      (hreads : Reads t o location source) (h : Grammar.parse source = .error e) :
      Refused t o (.refused (.parse e))
  | analysis {location : Location} {source : String} {g : Grammar} {e : GrammarError}
      (hreads : Reads t o location source) (hparse : Grammar.parse source = .ok g)
      (h : g.analyze o.mode = .error e) : Refused t o (.refused (.grammar e))
  | generation {location : Location} {source : String} {g analyzed : Grammar}
      {e : GrammarError} (hreads : Reads t o location source)
      (hparse : Grammar.parse source = .ok g) (hanalyze : g.analyze o.mode = .ok analyzed)
      (h : Parser.build analyzed (.ofHeader analyzed.header) o.policy = .error e) :
      Refused t o (.refused (.grammar e))

theorem run_process_of_reads {location : Location} {source : String} {e : Error}
    (hreads : Reads t o location source) (h : Product.ofSource o source = .error e) :
    (process access o).run t = (.of o.input "" (.error (.refused e)), t) := by
  obtain ⟨hinput, bytes, hread, htext⟩ := hreads
  simp only [process, readInput, run_bind, run_canonical, run_read, hinput, Except.map, hread,
    htext, run_pure, h]

theorem run_process_of_refused (h : Refused t o f) :
    (process access o).run t = (.of o.input "" (.error f), t) := by
  cases h with
  | noInput h => simp only [process, run_bind, run_canonical, h, Except.map, run_pure]
  | unreadable hinput h =>
      simp only [process, readInput, run_bind, run_canonical, run_read, hinput, Except.map, h,
        run_pure]
  | notText hinput hread h =>
      simp only [process, readInput, run_bind, run_canonical, run_read, hinput, Except.map,
        hread, h, run_pure]
  | parsing hreads h =>
      refine run_process_of_reads hreads ?_
      simp only [Product.ofSource, Grammar.load, h]
  | analysis hreads hparse h =>
      refine run_process_of_reads hreads ?_
      simp only [Product.ofSource, Grammar.load, hparse, h, Except.mapError]
  | generation hreads hparse hanalyze h =>
      refine run_process_of_reads hreads ?_
      simp only [Product.ofSource, Grammar.load, hparse, hanalyze, Except.mapError, h]

/-! ## What the writes change -/

theorem written_changed {path : String} {contents : ByteArray}
    (hwrite : t.write path contents = .ok t') (h : t'.node? place ≠ t.node? place) :
    t.target path = .ok place := by
  obtain ⟨location, htarget, rfl⟩ := write_eq_ok_iff.mp hwrite
  by_cases heq : place = location
  · rw [heq, htarget]
  · exact absurd (node?_put_of_ne htarget heq) h

theorem Dumped.changed (hdump : Dumped o output p t t') (h : t'.node? place ≠ t.node? place) :
    o.dump = true ∧ t.target (withExtension output "grammar") = .ok place := by
  cases hdump with
  | written hasked hwrite => exact ⟨hasked, written_changed hwrite h⟩
  | skipped => exact absurd rfl h

theorem BackedUp.changed (hbackup : BackedUp output t t')
    (h : t'.node? place ≠ t.node? place) :
    t.pathExists output = true ∧ t.target (backup output) = .ok place := by
  cases hbackup with
  | copied hexists hcopy =>
      obtain ⟨contents, -, hwrite⟩ := copy_eq_ok hcopy
      exact ⟨hexists, written_changed hwrite h⟩
  | absent => exact absurd rfl h

/-- The locations that a run may change when it has made a product: where the output goes,
where the dump goes if one is asked for, and where the backup goes if there is an output after
the dump. -/
inductive Touches (t : FileTree) (o : Options) (output : String) (p : Product)
    (place : Location) : Prop
  | output (h : t.target output = .ok place)
  | dump (hasked : o.dump = true) (h : t.target (withExtension output "grammar") = .ok place)
  | backup {t₁ : FileTree} (hdump : Dumped o output p t t₁)
      (hexists : t₁.pathExists output = true) (h : t.target (backup output) = .ok place)

theorem Touches.of_dump (hdump : Dumped o output p t t')
    (h : t'.node? place ≠ t.node? place) : Touches t o output p place :=
  .dump (hdump.changed h).1 (hdump.changed h).2

theorem Touches.of_backup {t₁ t₂ : FileTree} (hdump : Dumped o output p t t₁)
    (hbackup : BackedUp output t₁ t₂) (h : t₂.node? place ≠ t.node? place) :
    Touches t o output p place := by
  by_cases heq : t₁.node? place = t.node? place
  · rw [← heq] at h
    obtain ⟨hexists, htarget⟩ := hbackup.changed h
    exact .backup hdump hexists (hdump.target.mp htarget)
  · exact .of_dump hdump heq

theorem Stored.touches {result : Except Failure Unit} (hstored : Stored o output p t result t')
    (h : t'.node? place ≠ t.node? place) : Touches t o output p place := by
  cases hstored with
  | dumpFailed => exact absurd rfl h
  | backupFailed hdump => exact .of_dump hdump h
  | outputFailed hdump hbackup => exact .of_backup hdump hbackup h
  | @stored t₁ t₂ _ hdump hbackup hwrite =>
      by_cases heq : t₂.node? place = t.node? place
      · rw [← heq] at h
        exact .output (hdump.target.mp (hbackup.target.mp (written_changed hwrite h)))
      · exact .of_backup hdump hbackup heq

/-! ## A whole run -/

/-- A run that stops before it writes leaves the tree as it is, which is any run whose input
is refused. Every other run changes at most the output, its backup and its dump, and it
has made a product of its input before. -/
theorem run_touches (t : FileTree) (arguments : List String) :
    (Options.ofArguments arguments = none →
      (run access arguments).run t = (.usage, t)) ∧
    (∀ o f, Options.ofArguments arguments = some o → Refused t o f →
      (run access arguments).run t = (.of o.input "" (.error f), t)) ∧
    ∀ place, ((run access arguments).run t).2.node? place ≠ t.node? place →
      ∃ o location source p, Options.ofArguments arguments = some o ∧
        Reads t o location source ∧ Product.ofSource o source = .ok p ∧
        Touches t o (outputAt o location) p place := by
  refine ⟨?_, ?_, ?_⟩
  · intro hargs
    rw [run, hargs]
    rfl
  · intro o f hargs hrefused
    rw [run, hargs]
    exact run_process_of_refused hrefused
  · intro place hchanged
    cases hargs : Options.ofArguments arguments with
    | none =>
        rw [run, hargs] at hchanged
        exact absurd rfl hchanged
    | some o =>
        have hrun := run_of_options (t := t) hargs
        generalize (run access arguments).run t = final at hrun hchanged
        obtain ⟨outcome, t'⟩ := final
        cases hrun with
        | stopped => exact absurd rfl hchanged
        | @stored location bytes source p _ _ hinput hread htext hproduct hstored =>
            exact ⟨o, location, source, p, rfl, ⟨hinput, bytes, hread, htext⟩, hproduct,
              hstored.touches hchanged⟩

/-- On `usedTree` the old output is no grammar, and a run with the grammar keeps the old
output at a location where nothing was. -/
theorem run_touches_usedTree :
    (run access ["in.c"]).run usedTree =
      (.of "in.c" "" (.error (.refused (.parse (.sections 1)))), usedTree) ∧
    ((run access ["--dump", "in.pg"]).run usedTree).2.node? ["work", "in.c.bak"] ≠
      usedTree.node? ["work", "in.c.bak"] ∧
    ∃ o p, o.dump = true ∧
      Touches usedTree o (outputAt o ["work", "in.pg"]) p ["work", "in.c.bak"] := by
  have hreads : Reads usedTree ⟨false, false, false, false, none, "in.c"⟩ ["work", "in.c"]
      "old" := ⟨rfl, "old".toUTF8, rfl, by decide +kernel⟩
  have hrefused := (run_touches usedTree ["in.c"]).2.1 _ _ rfl (.parsing hreads rfl)
  have hchanged : ((run access ["--dump", "in.pg"]).run usedTree).2.node?
      ["work", "in.c.bak"] ≠ usedTree.node? ["work", "in.c.bak"] := by
    intro heq
    have hthere : (((run access ["--dump", "in.pg"]).run usedTree).2.node?
        ["work", "in.c.bak"]).isSome = true := by decide +kernel
    rw [heq] at hthere
    cases hthere
  obtain ⟨o, location, _, p, hargs, hreads, -, htouches⟩ :=
    (run_touches usedTree ["--dump", "in.pg"]).2.2 _ hchanged
  obtain rfl : o = ⟨false, false, true, false, none, "in.pg"⟩ := (Option.some.inj hargs).symm
  obtain rfl : location = ["work", "in.pg"] := (Except.ok.inj hreads.resolve).symm
  exact ⟨hrefused, hchanged, _, p, rfl, htouches⟩

end Descent.CommandLine
