import Descent.Proofs.Analysis.Result
import Descent.Proofs.C.Returns
import Descent.Proofs.CommandLine.Outputs
import Descent.Proofs.File.RoundTrip

/-!
# The warning about expansions that are never selected

A run that succeeds lists the expansions whose user action the code never calls
(`run_lists_unselected`). The list is made from the branches without predictions, the
code from the others and from the fallback. An expansion with a user action is on one
side only. An empty expansion behind another one of its symbol has no user action and
is on neither side.

The text of the code is read line by line. For that the settings must not begin with
a tab, and they do not where a source sets them, since the value of an option is
trimmed (`flush_ofHeader`).
-/

namespace Descent

/-! ## Labels -/

/-- What an expansion is called in the warning. -/
def label (symbol : String) (i : Nat) : String := symbol ++ "#" ++ toString i

theorem label_inj {a b : String} {i j : Nat} : label a i = label b j ↔ a = b ∧ i = j :=
  numbered_inj (c := '#') (by decide) (by decide)

/-- The labels of all expansions in the order of the file. -/
def Grammar.labels (g : Grammar) : List String :=
  g.symbols.entries.flatMap fun entry =>
    (List.range entry.2.expansions.length).map (label entry.1)

theorem Grammar.nodup_labels (g : Grammar) : g.labels.Nodup :=
  nodup_flatMap_indexed label_inj g.symbols.nodup_keys fun _ => List.nodup_range

namespace Parser

variable {g : Grammar} {settings : Settings} {policy : ConflictPolicy} {p : Parser}
  {symbol : String} {data : Symbol} {i : Nat}

/-! ## The list -/

theorem neverSelected_eq (hbuild : build g settings policy = .ok p) :
    p.neverSelected = g.symbols.entries.flatMap fun entry =>
      (g.routine settings entry.1 entry.2).shadowedIndices.map (label entry.1) := by
  obtain ⟨-, start, rfl⟩ := build_eq_ok hbuild
  simp only [neverSelected, Grammar.parserFrom, Grammar.routines, List.flatMap_map,
    Routine.shadowedIndices, List.map_map]
  rfl

theorem mem_neverSelected_iff (hbuild : build g settings policy = .ok p)
    (hfind : g.symbols.find? symbol = some data) :
    label symbol i ∈ p.neverSelected ↔
      i ∈ (g.routine settings symbol data).shadowedIndices := by
  rw [neverSelected_eq hbuild, mem_flatMap_indexed label_inj]
  constructor
  · rintro ⟨entry, hentry, rfl, hi⟩
    obtain rfl := Option.some.inj (hfind.symm.trans (Table.find?_eq_some_iff.mpr hentry))
    exact hi
  · exact fun hi => ⟨(symbol, data), Table.find?_eq_some_iff.mp hfind, rfl, hi⟩

theorem neverSelected_sublist (hbuild : build g settings policy = .ok p) :
    p.neverSelected.Sublist g.labels := by
  have hindices : ∀ entry : String × Symbol,
      (g.routine settings entry.1 entry.2).shadowedIndices.Sublist
        (List.range entry.2.expansions.length) := by
    intro entry
    have hbranches := g.map_expansion_dispatch_sublist entry.1 entry.2
    rw [List.zipIdx_map_snd, ← List.range_eq_range'] at hbranches
    exact (List.filter_sublist.map Branch.expansion).trans hbranches
  rw [neverSelected_eq hbuild, Grammar.labels]
  induction g.symbols.entries with
  | nil => exact .slnil
  | cons entry entries ih =>
      rw [List.flatMap_cons, List.flatMap_cons]
      exact ((hindices entry).map (label entry.1)).append ih

/-! ## The code -/

/-- The text of a symbol's routine has a line that returns what the user action of an
expansion gives. -/
def Calls (p : Parser) (symbol : String) (i : Nat) : Prop :=
  ∃ f ∈ (C.Program.ofParser p).functions, f.name = p.settings.routineName symbol ∧
    ∃ line ∈ f.lines p.settings,
      C.returnsAction (p.settings.actionName symbol i) line = true

theorem calls_iff (hbuild : build g settings policy = .ok p) (hflush : C.Flush settings)
    (hfind : g.symbols.find? symbol = some data) :
    p.Calls symbol i ↔ i ∈ (g.routine settings symbol data).calledIndices := by
  have hsettings := settings_of_build hbuild
  rw [← C.exists_returnsAction_iff hflush]
  unfold Calls
  rw [hsettings]
  constructor
  · rintro ⟨f, hf, hname, hreturns⟩
    obtain ⟨r, hr, rfl⟩ := (C.mem_functions_iff hbuild).mp hf
    obtain ⟨entry, hentry, rfl⟩ := (mem_routines_iff hbuild).mp hr
    obtain rfl : entry.1 = symbol := Settings.prefixed_inj.mp hname
    obtain rfl := Option.some.inj (hfind.symm.trans (Table.find?_eq_some_iff.mpr hentry))
    exact hreturns
  · intro hreturns
    have hr : g.routine settings symbol data ∈ p.routines :=
      (mem_routines_iff hbuild).mpr ⟨_, Table.find?_eq_some_iff.mp hfind, rfl⟩
    exact ⟨_, (C.mem_functions_iff hbuild).mpr ⟨_, hr, rfl⟩, rfl, hreturns⟩

/-- A list has the labels of the expansions whose user action is never called, in the order of
the file; but not those of repeated empty expansions, which have no user action. -/
structure ListsUnselected (g : Grammar) (p : Parser) (labels : List String) : Prop where
  mem_iff {symbol : String} {data : Symbol} {i : Nat}
    (hfind : g.symbols.find? symbol = some data) (hi : i < data.expansions.length) :
    label symbol i ∈ labels ↔ ¬ p.Calls symbol i ∧ ¬ data.Repeats i
  repeats {symbol : String} {data : Symbol} {i : Nat}
    (hfind : g.symbols.find? symbol = some data) (hrepeats : data.Repeats i) :
    ¬ p.Calls symbol i
  sublist : labels.Sublist g.labels
  nodup : labels.Nodup

theorem not_calls_of_repeats (hbuild : build g settings policy = .ok p)
    (hflush : C.Flush settings) (hfind : g.symbols.find? symbol = some data)
    (hrepeats : data.Repeats i) : ¬ p.Calls symbol i := by
  rw [calls_iff hbuild hflush hfind]
  intro hcalled
  have haction : i ∈ (g.routine settings symbol data).actionIndices :=
    (Routine.perm_actionIndices _).mem_iff.mp (List.mem_append_right _ hcalled)
  exact (mem_actionIndices_routine.mp haction).2 hrepeats

theorem listsUnselected (hbuild : build g settings policy = .ok p) (hflush : C.Flush settings) :
    ListsUnselected g p p.neverSelected where
  mem_iff {symbol data i} hfind hi := by
    rw [mem_neverSelected_iff hbuild hfind, calls_iff hbuild hflush hfind,
      Routine.mem_shadowedIndices_iff nodup_actionIndices_routine, mem_actionIndices_routine,
      Symbol.HasAction, and_iff_right hi, and_comm]
  repeats {_ _ _} hfind hrepeats := not_calls_of_repeats hbuild hflush hfind hrepeats
  sublist := neverSelected_sublist hbuild
  nodup := g.nodup_labels.sublist (neverSelected_sublist hbuild)

end Parser

/-! ## The settings of a source -/

theorem head?_ne_of_plain {s : String} (h : Plain s) : s.toList.head? ≠ some '\t' := by
  intro hhead
  have hstart := Text.trimStart_eq_self_iff.mp (Text.trimStart_of_trim h.trimmed)
  have hblank : Text.isBlank '\t' = true := by decide
  rw [hstart '\t' hhead] at hblank
  cases hblank

theorem head?_ne_of_chosen {g : Grammar} (hwritable : g.Writable) {key value : String}
    (h : Settings.chosen? g.header key = some value) : value.toList.head? ≠ some '\t' := by
  obtain ⟨hoption, -⟩ := Option.filter_eq_some_iff.mp h
  exact head?_ne_of_plain (hwritable.options _ (Table.find?_eq_some_iff.mp hoption)).2.1

theorem flush_ofHeader {g : Grammar} (hwritable : g.Writable) :
    C.Flush (.ofHeader g.header) := by
  have hbegins : (Settings.ofHeader g.header).namePrefix.toList.head? ≠ some '\t' := by
    show ((Settings.chosen? g.header "prefix").getD "yy").toList.head? ≠ some '\t'
    cases h : Settings.chosen? g.header "prefix" with
    | none => decide
    | some value => exact head?_ne_of_chosen hwritable h
  refine ⟨hbegins, ?_⟩
  show ((Settings.chosen? g.header "token_type").getD
    ((Settings.ofHeader g.header).namePrefix ++ "_token_t")).toList.head? ≠ some '\t'
  cases h : Settings.chosen? g.header "token_type" with
  | none =>
      rw [Option.getD_none, String.toList_append, List.head?_append]
      cases hhead : (Settings.ofHeader g.header).namePrefix.toList.head? with
      | none => decide
      | some c =>
          rw [hhead] at hbegins
          exact hbegins
  | some value => exact head?_ne_of_chosen hwritable h

theorem Grammar.load_eq_ok {mode : Mode} {source : String} {g : Grammar}
    (h : load (some mode) source = .ok g) :
    ∃ g₀, parse source = .ok g₀ ∧ g₀.analyze mode = .ok g := by
  unfold load at h
  split at h
  · cases h
  · next g₀ hparse =>
      replace h : (g₀.analyze mode).mapError Error.grammar = .ok g := h
      cases hanalyze : g₀.analyze mode with
      | error e =>
          rw [hanalyze] at h
          cases h
      | ok analyzed =>
          rw [hanalyze] at h
          injection h with h
          exact ⟨g₀, hparse, h ▸ hanalyze⟩

theorem flush_of_load {mode : Mode} {source : String} {g : Grammar}
    (h : Grammar.load (some mode) source = .ok g) : C.Flush (.ofHeader g.header) := by
  obtain ⟨g₀, hparse, hanalyze⟩ := Grammar.load_eq_ok h
  rw [Grammar.header_of_analyze hanalyze]
  exact flush_ofHeader (Grammar.writable_of_parse hparse)

/-! ## The warning -/

namespace CommandLine

open FileTree Descent.Path

variable {t : FileTree}

/-- A run that succeeds has written the code of a parser, and the warning that it prints
lists just the expansions whose user action is not called there. Without such expansions it
prints nothing. -/
theorem run_lists_unselected {arguments : List String}
    (hcode : ((run access arguments).run t).1.exitCode = 0) :
    ∃ o location bytes source g p labels,
      Options.ofArguments arguments = some o ∧
      t.resolve o.input = .ok location ∧
      t.read (pathOf location) = .ok bytes ∧
      String.fromUTF8? bytes = some source ∧
      Grammar.load (some o.mode) source = .ok g ∧
      Parser.build g (.ofHeader g.header) o.policy = .ok p ∧
      ((run access arguments).run t).2.Holds (outputAt o location) (C.render p).toUTF8 ∧
      ((run access arguments).run t).1.stdout = (if labels = [] then "" else
        "[warning] The following expansions can never be selected: " ++
          Text.quotedList labels ++ "\n") ∧
      Parser.ListsUnselected g p labels := by
  obtain ⟨o, location, bytes, source, product, hargs, hinput, hread, htext, hproduct, hstored,
    houtcome⟩ := stored_of_exitCode hcode
  obtain ⟨g, p, hload, hbuild, rfl⟩ := ofSource_eq_ok hproduct
  refine ⟨o, location, bytes, source, g, p, p.neverSelected, hargs, hinput, hread, htext, hload,
    hbuild, hstored.holds_output, ?_, Parser.listsUnselected hbuild (flush_of_load hload)⟩
  rw [houtcome]
  simp only [Product.warning, Product.ofParser, List.isEmpty_iff]

/-- A directory with a grammar that has one expansion twice. -/
def shadowedTree : FileTree where
  nodes := (∅ : Table Location Node).insert
    ["in.pg"] (.file "X = x\n%%\ns := X\ns := X\n%%".toUTF8)
  workingDirectory := []

theorem run_lists_unselected_shadowedTree :
    ((run access ["in.pg"]).run shadowedTree).1.exitCode = 0 ∧
      ∃ g p labels, Parser.build g (.ofHeader g.header) .warn = .ok p ∧
        labels ≠ [] ∧ Parser.ListsUnselected g p labels := by
  have houtcome : ((run access ["in.pg"]).run shadowedTree).1 =
      ⟨0, "[warning] The following expansions can never be selected: [\"s#1\"]\n", ""⟩ := by
    decide +kernel
  have hcode : ((run access ["in.pg"]).run shadowedTree).1.exitCode = 0 := by rw [houtcome]
  obtain ⟨o, _, _, _, g, p, labels, hargs, -, -, -, -, hbuild, -, hstdout, hlists⟩ :=
    run_lists_unselected hcode
  obtain rfl : o = ⟨false, false, false, false, none, "in.pg"⟩ := (Option.some.inj hargs).symm
  refine ⟨hcode, g, p, labels, hbuild, ?_, hlists⟩
  rintro rfl
  rw [houtcome, if_pos rfl] at hstdout
  exact absurd hstdout (by decide)

/-- A source with an empty expansion twice. -/
def repeatingSource : String := "X = x\n%%\ns := X\ns :=\ns :=\n%%"

/-- The grammar of `repeatingSource` with its sets. -/
def repeating : Grammar where
  header := .ofItems [.terminal "X" "x"]
  symbols := (Symbol.tableOfRules [⟨"s", ["X"]⟩, ⟨"s", []⟩, ⟨"s", []⟩]).modifyAt 0
    fun data => { data with first := .singleton 0 }

/-- The parser of `repeating`. -/
def repeatingParser : Parser :=
  repeating.parserFrom (.ofHeader repeating.header) (some "s")

/-- A directory with `repeatingSource`. -/
def repeatingTree : FileTree where
  nodes := (∅ : Table Location Node).insert ["in.pg"] (.file repeatingSource.toUTF8)
  workingDirectory := []

/-- A run does not list all expansions whose user action is not called. -/
theorem run_omits_repeated :
    ((run access ["in.pg"]).run repeatingTree).1 = ⟨0, "", ""⟩ ∧
      Grammar.load (some .firstOnly) repeatingSource = .ok repeating ∧
      Parser.build repeating (.ofHeader repeating.header) .warn = .ok repeatingParser ∧
      (∃ data, repeating.symbols.find? "s" = some data ∧ data.expansions[2]? = some []) ∧
      ¬ repeatingParser.Calls "s" 2 := by
  have hrun : ((run access ["in.pg"]).run repeatingTree).1 = ⟨0, "", ""⟩ := by decide +kernel
  have hload : Grammar.load (some .firstOnly) repeatingSource = .ok repeating := by rfl
  have hbuild : Parser.build repeating (.ofHeader repeating.header) .warn =
      .ok repeatingParser := by rfl
  have hnone : ∀ f ∈ (C.Program.ofParser repeatingParser).functions,
      ∀ line ∈ f.lines repeatingParser.settings,
        C.returnsAction (repeatingParser.settings.actionName "s" 2) line = false := by
    decide
  refine ⟨hrun, hload, hbuild, ⟨_, rfl, rfl⟩, ?_⟩
  rintro ⟨f, hf, -, line, hline, hreturns⟩
  rw [hnone f hf line hline] at hreturns
  cases hreturns

end CommandLine

end Descent
