import Mathlib.Data.List.Forall2
import Descent.Proofs.C.Names

/-!
# What a program calls

A program is closed under its calls (`ClosedUnderCalls`): a routine that is called
has one prototype and one function of its own, and the call of a user action passes
what the action's one prototype takes.

The prototypes, the functions and the entry point are made from the parser one apart
from the other, and prototypes also from branches that no function has a case for.
What holds them together is that a step calls a symbol of the grammar, that every
symbol has one routine, and that a prototype and a call which are made of the same
branch go along the same steps.
-/

namespace Descent

namespace Grammar

variable {g : Grammar} {symbol : String} {data : Symbol}

theorem call_mem_keys {expansion : Expansion} {index slot n : Nat} {nullable : Bool}
    (h : Step.call symbol n nullable ∈ g.steps index slot expansion) :
    symbol ∈ g.symbols.keys := by
  induction expansion generalizing index slot with
  | nil => cases h
  | cons name rest ih =>
      unfold steps at h
      split at h
      · rcases List.mem_cons.mp h with h | h
        · cases h
        · exact ih h
      · split at h
        · next called hfind =>
            rcases List.mem_cons.mp h with h | h
            · injection h with h
              subst h
              exact Table.isSome_find?_iff.mp (by rw [hfind]; rfl)
            · exact ih h
        · exact ih h

theorem call_mem_keys_of_branch {b : Branch} {n : Nat} {nullable : Bool}
    (hb : b ∈ (g.dispatch symbol data).1) {called : String}
    (h : Step.call called n nullable ∈ b.steps) : called ∈ g.symbols.keys := by
  obtain ⟨e, -, he⟩ := List.mem_map.mp
    (g.map_branches symbol [] data.expansions.zipIdx ▸
      List.mem_map_of_mem (f := fun b : Branch => (b.expansion, b.steps)) hb)
  injection he with _ hsteps
  rw [← hsteps] at h
  exact call_mem_keys h

end Grammar

/-- A parser wants the routine of the symbol that it starts with, and of the symbols that are
parsed in a branch which some token selects. -/
inductive Parser.Wants (p : Parser) (symbol : String) : Prop
  | start (h : p.start = some symbol) : Wants p symbol
  | step {r : Routine} {b : Branch} {slot : Nat} {nullable : Bool} (hr : r ∈ p.routines)
      (hb : b ∈ r.branches) (hselected : b.predictions ≠ [])
      (hstep : .call symbol slot nullable ∈ b.steps) : Wants p symbol

/-- The expansions with a branch that some token selects, and the fallback. -/
def Routine.calledIndices (r : Routine) : List Nat :=
  (r.branches.filter fun branch => !branch.predictions.isEmpty).map Branch.expansion ++
    r.fallback.toList

namespace C

/-! ## Calls -/

/-- The routine that a check calls, if it calls one. -/
def Check.callee? : Check → Option String
  | .eat _ => none
  | .fill _ routine => some routine

/-- The calls of user actions in a function. -/
def Function.actionCalls (f : Function) : List ActionCall :=
  f.cases.map Case.action ++ f.fallback.toList

/-- The routines that a program calls. -/
def Program.callees (program : Program) : List String :=
  (program.functions.flatMap fun f =>
    f.cases.flatMap fun c => c.checks.filterMap Check.callee?) ++ program.entry.toList

/-- Every name that a program defines. -/
def Program.definitions (program : Program) : List String :=
  program.functions.map Function.name ++ program.ownNames

/-- What is passed fits what is taken: the value of a terminal for a token, and a slot for a
node. -/
inductive Fits : Argument → ParameterType → Prop
  | value (text : String) : Fits (.value text) .token
  | node (slot : Nat) : Fits (.node slot) .node

/-- Everything that a program calls is there, once. -/
structure ClosedUnderCalls (program : Program) : Prop where
  declared : ∀ name ∈ program.callees, program.routines.count name = 1
  defined : ∀ name ∈ program.callees, (program.functions.map Function.name).count name = 1
  /-- A fixed name, or that of the entry point, may be another definition of a routine's
  name. -/
  definedOnce : ∀ name ∈ program.callees, program.definitions.count name = 1 ↔
    ∀ own ∈ "parse" :: fixedNames, name ≠ program.settings.prefixed own
  distinct : (program.actions.map Prototype.name).Nodup
  fits : ∀ f ∈ program.functions, ∀ call ∈ f.actionCalls,
    ∃ prototype ∈ program.actions, prototype.name = call.name ∧
      List.Forall₂ Fits call.arguments prototype.parameters
  fallback : ∀ f ∈ program.functions, ∀ call ∈ f.fallback, call.arguments = []

variable {g : Grammar} {settings : Settings} {policy : ConflictPolicy} {p : Parser}
  {symbol : String}

theorem fits_steps (steps : List Step) :
    List.Forall₂ Fits (steps.map Argument.ofStep) (steps.map ParameterType.ofStep) := by
  induction steps with
  | nil => exact .nil
  | cons step steps ih =>
      cases step with
      | consume terminal index => exact .cons (.value _) ih
      | call symbol slot nullable => exact .cons (.node _) ih

theorem fits_routine {r : Routine} {call : ActionCall}
    (hcall : call ∈ (Function.ofRoutine settings r).actionCalls) :
    ∃ prototype ∈ Prototype.listOfRoutine settings r, prototype.name = call.name ∧
      List.Forall₂ Fits call.arguments prototype.parameters := by
  rcases List.mem_append.mp hcall with hcase | hfallback
  · obtain ⟨c, hc, rfl⟩ := List.mem_map.mp hcase
    obtain ⟨b, hb, rfl⟩ := List.mem_map.mp hc
    have hbranch := List.mem_of_mem_filter hb
    exact ⟨.ofBranch settings r.symbol b, List.mem_append_left _ (List.mem_map_of_mem hbranch),
      rfl, fits_steps b.steps⟩
  · obtain ⟨i, hi, rfl⟩ := Option.map_eq_some_iff.mp (Option.mem_toList.mp hfallback)
    have hfallback : i ∈ r.fallback.toList := Option.mem_toList.mpr hi
    exact ⟨.ofFallback settings r.symbol i,
      List.mem_append_right _ (List.mem_map_of_mem hfallback), rfl, .nil⟩

theorem map_name_actionCalls (settings : Settings) (r : Routine) :
    (Function.ofRoutine settings r).actionCalls.map ActionCall.name =
      r.calledIndices.map (settings.actionName r.symbol) := by
  simp only [Function.actionCalls, Function.ofRoutine, Routine.calledIndices, List.map_append,
    List.map_map, Option.toList_map]
  rfl

theorem mem_functions_iff (hbuild : Parser.build g settings policy = .ok p) {f : Function} :
    f ∈ (Program.ofParser p).functions ↔ ∃ r ∈ p.routines, .ofRoutine settings r = f := by
  rw [← Parser.settings_of_build hbuild]
  exact List.mem_map

theorem map_name_routines (hbuild : Parser.build g settings policy = .ok p) :
    p.routines.map Routine.name = g.symbols.keys.map settings.prefixed := by
  obtain ⟨-, start, rfl⟩ := Parser.build_eq_ok hbuild
  simp only [Grammar.parserFrom, Grammar.routines, Table.keys, List.map_map]
  rfl

theorem map_name_functions (p : Parser) :
    (Program.ofParser p).functions.map Function.name = p.routines.map Routine.name := by
  simp only [Program.ofParser, List.map_map]
  rfl

/-- What a program calls is the routine of every symbol that is wanted, and nothing else. -/
theorem mem_callees_iff (p : Parser) {name : String} :
    name ∈ (Program.ofParser p).callees ↔
      ∃ symbol, p.Wants symbol ∧ name = p.settings.routineName symbol := by
  constructor
  · intro hname
    rcases List.mem_append.mp hname with hcall | hentry
    · obtain ⟨f, hf, hcall⟩ := List.mem_flatMap.mp hcall
      obtain ⟨c, hc, hcall⟩ := List.mem_flatMap.mp hcall
      obtain ⟨check, hcheck, hcallee⟩ := List.mem_filterMap.mp hcall
      obtain ⟨r, hr, rfl⟩ := List.mem_map.mp hf
      obtain ⟨b, hb, rfl⟩ := List.mem_map.mp hc
      obtain ⟨step, hstep, rfl⟩ := List.mem_map.mp hcheck
      cases step with
      | consume terminal index => cases hcallee
      | call symbol slot nullable =>
          injection hcallee with hcallee
          obtain ⟨hbranch, hselected⟩ := List.mem_filter.mp hb
          exact ⟨symbol, .step hr hbranch (by simpa using hselected) hstep, hcallee.symm⟩
    · obtain ⟨symbol, hstart, rfl⟩ := Option.map_eq_some_iff.mp (Option.mem_toList.mp hentry)
      exact ⟨symbol, .start hstart, rfl⟩
  · rintro ⟨symbol, hwants, rfl⟩
    cases hwants with
    | start hstart =>
        refine List.mem_append_right _ (Option.mem_toList.mpr ?_)
        exact Option.map_eq_some_iff.mpr ⟨symbol, hstart, rfl⟩
    | @step r b slot nullable hr hb hselected hstep =>
        refine List.mem_append_left _ (List.mem_flatMap.mpr
          ⟨_, List.mem_map_of_mem hr, List.mem_flatMap.mpr
            ⟨_, List.mem_map_of_mem (List.mem_filter.mpr ⟨hb, by simpa using hselected⟩), ?_⟩⟩)
        exact List.mem_filterMap.mpr ⟨_, List.mem_map_of_mem hstep, rfl⟩

theorem mem_keys_of_wants (hbuild : Parser.build g settings policy = .ok p)
    (h : p.Wants symbol) : symbol ∈ g.symbols.keys := by
  cases h with
  | start hstart => exact Parser.start_mem_keys hbuild hstart
  | step hr hb _ hstep =>
      obtain ⟨entry, -, rfl⟩ := (Parser.mem_routines_iff hbuild).mp hr
      exact Grammar.call_mem_keys_of_branch hb hstep

theorem count_name_of_callee (hbuild : Parser.build g settings policy = .ok p) {name : String}
    (hname : name ∈ (Program.ofParser p).callees) :
    (p.routines.map Routine.name).count name = 1 := by
  have hinjective : Function.Injective settings.prefixed := fun _ _ => Settings.prefixed_inj.mp
  obtain ⟨symbol, hwants, rfl⟩ := (mem_callees_iff p).mp hname
  rw [map_name_routines hbuild, Parser.settings_of_build hbuild]
  exact List.count_eq_one_of_mem (g.symbols.nodup_keys.map hinjective)
    (List.mem_map_of_mem (mem_keys_of_wants hbuild hwants))

theorem ownNames_of_callee (hbuild : Parser.build g settings policy = .ok p) {name : String}
    (hname : name ∈ (Program.ofParser p).callees) :
    (Program.ofParser p).ownNames = ("parse" :: fixedNames).map settings.prefixed := by
  have hroutine : name ∈ p.routines.map Routine.name :=
    List.count_pos_iff.mp (by rw [count_name_of_callee hbuild hname]; decide)
  obtain ⟨r, hr, -⟩ := List.mem_map.mp hroutine
  exact ownNames_eq hbuild hr

theorem closedUnderCalls (hbuild : Parser.build g settings policy = .ok p) :
    ClosedUnderCalls (Program.ofParser p) where
  declared name hname := count_name_of_callee hbuild hname
  defined name hname := by
    rw [map_name_functions]
    exact count_name_of_callee hbuild hname
  definedOnce name hname := by
    have hsettings : (Program.ofParser p).settings = settings :=
      Parser.settings_of_build hbuild
    rw [Program.definitions, List.count_append, map_name_functions,
      count_name_of_callee hbuild hname, ownNames_of_callee hbuild hname, hsettings,
      Nat.add_eq_left, List.count_eq_zero]
    simp only [List.mem_map, not_exists, not_and, ne_eq, eq_comm]
  distinct := nodup_actions hbuild
  fits f hf call hcall := by
    obtain ⟨r, hr, rfl⟩ := List.mem_map.mp hf
    obtain ⟨prototype, hmem, hfits⟩ := fits_routine hcall
    exact ⟨prototype, List.mem_flatMap.mpr ⟨r, hr, hmem⟩, hfits⟩
  fallback f hf call hcall := by
    obtain ⟨r, hr, rfl⟩ := List.mem_map.mp hf
    obtain ⟨i, -, rfl⟩ := Option.map_eq_some_iff.mp hcall
    rfl

/-- A program calls the routines that its parser wants and the user actions of the expansions
that some token selects and of the fallbacks, and all of them are there. -/
theorem closedUnderCalls_ofParser (hbuild : Parser.build g settings policy = .ok p) :
    (∀ name, name ∈ (Program.ofParser p).callees ↔
      ∃ symbol, p.Wants symbol ∧ name = p.settings.routineName symbol) ∧
    (∀ r ∈ p.routines, ∃ f ∈ (Program.ofParser p).functions, f.name = r.name ∧
      f.actionCalls.map ActionCall.name =
        r.calledIndices.map (p.settings.actionName r.symbol)) ∧
    ClosedUnderCalls (Program.ofParser p) :=
  ⟨fun _ => mem_callees_iff p,
    fun r hr => ⟨_, List.mem_map_of_mem hr, rfl, map_name_actionCalls p.settings r⟩,
    closedUnderCalls hbuild⟩

/-- A grammar with a branch that no token selects, and with a fallback. -/
def shadowing : Grammar where
  header := .ofItems [.terminal "X" "x"]
  symbols := Symbol.tableOfRules [⟨"s", ["X", "s"]⟩, ⟨"s", ["X"]⟩, ⟨"s", []⟩]

/-- The same grammar with its sets. -/
def shadowingAnalyzed : Grammar :=
  { shadowing with symbols := (shadowing.analysis .follow).symbols }

/-- The parser of `shadowingAnalyzed`. -/
def shadowingParser : Parser :=
  shadowingAnalyzed.parserFrom (.ofHeader shadowingAnalyzed.header) (some "s")

theorem closedUnderCalls_ofParser_shadowing :
    shadowing.analyze .follow = .ok shadowingAnalyzed ∧
      Parser.build shadowingAnalyzed (.ofHeader shadowingAnalyzed.header) .warn =
        .ok shadowingParser ∧
      (Program.ofParser shadowingParser).callees = ["yy_s", "yy_s"] ∧
      (Program.ofParser shadowingParser).definitions.count "yy_s" = 1 ∧
      ClosedUnderCalls (Program.ofParser shadowingParser) := by
  have hanalyze : shadowing.analyze .follow = .ok shadowingAnalyzed := by rfl
  have hbuild : Parser.build shadowingAnalyzed (.ofHeader shadowingAnalyzed.header) .warn =
      .ok shadowingParser := by rfl
  have hclosed := (closedUnderCalls_ofParser hbuild).2.2
  have hcallee : "yy_s" ∈ (Program.ofParser shadowingParser).callees := by decide
  exact ⟨hanalyze, hbuild, by decide, (hclosed.definedOnce "yy_s" hcallee).mpr (by decide),
    hclosed⟩

/-- A source whose start symbol is called like the entry point. -/
def homonymSource : String :=
  "X = x\n%%\nparse := X\n%%"

/-- The grammar of `homonymSource` with its sets. -/
def homonym : Grammar where
  header := .ofItems [.terminal "X" "x"]
  symbols := (Symbol.tableOfRules [⟨"parse", ["X"]⟩]).modifyAt 0
    fun data => { data with first := .singleton 0 }

/-- The parser of `homonym`. -/
def homonymParser : Parser :=
  homonym.parserFrom (.ofHeader homonym.header) (some "parse")

/-- A name that is called may have two definitions: the entry point calls `yy_parse`, which
is a routine and the entry point itself. -/
theorem exists_callee_defined_twice :
    Grammar.load (some .firstOnly) homonymSource = .ok homonym ∧
      Parser.build homonym (.ofHeader homonym.header) .warn = .ok homonymParser ∧
      "yy_parse" ∈ (Program.ofParser homonymParser).callees ∧
      (Program.ofParser homonymParser).definitions.count "yy_parse" = 2 ∧
      ∀ line ∈ ["static yy_node_t* yy_parse(void)", "yy_node_t* yy_parse(void)",
        "\treturn yy_parse();"], line ∈ (Program.ofParser homonymParser).lines := by
  have hload : Grammar.load (some .firstOnly) homonymSource = .ok homonym := by rfl
  have hbuild : Parser.build homonym (.ofHeader homonym.header) .warn = .ok homonymParser := by
    rfl
  refine ⟨hload, hbuild, ?_, ?_, ?_⟩
  · decide
  · decide
  · decide

end C

end Descent
