import Descent.Proofs.C.Calls
import Descent.Proofs.Parser.Predictions

/-!
# Routines account for expansions, and their slots fit

A routine has a branch for each non-empty expansion, in order, and the steps of a branch
spell its expansion (`Branch.Spells`). The walk along an expansion carries two counters,
one for terminals and one for symbols, and a step takes the counter of its kind. So behind
any start the indices of the consuming steps run on from the one counter and the slots of
the calls from the other (`filterMap_index?_steps`, `filterMap_slot?_steps`).

The slots of a branch are therefore those below its number of symbols, and the array of a
function has room for the largest of these numbers (`slotsFit_ofRoutine`).
-/

namespace Descent

/-! ## Steps -/

namespace Step

/-- The name in the expansion that a step is made of. -/
def name : Step → String
  | .consume terminal _ => terminal.name
  | .call symbol _ _ => symbol

/-- The index of a step that consumes a terminal. -/
def index? : Step → Option Nat
  | .consume _ index => some index
  | .call .. => none

/-- The slot of a step that parses a symbol. -/
def slot? : Step → Option Nat
  | .consume .. => none
  | .call _ slot _ => some slot

/-- A step does what its name stands for: it consumes the terminal of that name, or it parses
the symbol of that name and knows whether it is nullable. -/
inductive StandsFor (g : Grammar) : Step → Prop
  | consume {terminal : Terminal} {index t : Nat}
      (hname : g.resolve terminal.name = some (.terminal t))
      (hterminal : g.header.terminal? t = some terminal) : StandsFor g (.consume terminal index)
  | call {symbol : String} {slot n : Nat} {data : Symbol}
      (hname : g.resolve symbol = some (.nonterminal n))
      (hdata : g.symbols.find? symbol = some data) : StandsFor g (.call symbol slot data.nullable)

end Step

namespace Grammar

variable {g : Grammar} {name : String} {expansion rest : Expansion} {index slot : Nat}

/-- What a name adds to the steps of an expansion, and which counter goes on behind it. -/
theorem steps_cons_cases (g : Grammar) (name : String) (rest : Expansion) (index slot : Nat) :
    (∃ terminal : Terminal, terminal.name = name ∧
      (Step.consume terminal index).StandsFor g ∧
      g.steps index slot (name :: rest) =
        .consume terminal index :: g.steps (index + 1) slot rest) ∨
    (∃ nullable, (Step.call name slot nullable).StandsFor g ∧
      g.steps index slot (name :: rest) =
        .call name slot nullable :: g.steps index (slot + 1) rest) ∨
    g.resolve name = none ∧ g.steps index slot (name :: rest) = g.steps index slot rest := by
  cases hname : g.resolve name with
  | none => exact Or.inr (Or.inr ⟨rfl, steps_of_unresolved hname⟩)
  | some token =>
      cases token with
      | terminal t =>
          obtain ⟨value, hterminal, hfind⟩ := terminal?_of_resolve hname
          exact Or.inl ⟨⟨name, value⟩, rfl, .consume hname hterminal, by rw [steps, hfind]⟩
      | nonterminal n =>
          obtain ⟨hnone, hposition⟩ := findTerminal?_of_nonterminal hname
          obtain ⟨data, hdata, -⟩ := find?_of_position? hposition
          exact Or.inr (Or.inl ⟨data.nullable, .call hname hdata, by rw [steps, hnone, hdata]⟩)

theorem map_name_steps (h : ∀ name ∈ expansion, (g.resolve name).isSome = true) :
    (g.steps index slot expansion).map Step.name = expansion := by
  induction expansion generalizing index slot with
  | nil => rfl
  | cons name rest ih =>
      have hrest : ∀ other ∈ rest, (g.resolve other).isSome = true :=
        fun other hother => h other (List.mem_cons_of_mem name hother)
      rcases g.steps_cons_cases name rest index slot with
        ⟨terminal, hname, -, hsteps⟩ | ⟨nullable, -, hsteps⟩ | ⟨hnone, -⟩
      · rw [hsteps, List.map_cons, ih hrest]
        exact congrArg (· :: rest) hname
      · rw [hsteps, List.map_cons, ih hrest]
        rfl
      · have hsome := h name List.mem_cons_self
        rw [hnone] at hsome
        cases hsome

theorem standsFor_of_mem_steps {step : Step} (h : step ∈ g.steps index slot expansion) :
    step.StandsFor g := by
  induction expansion generalizing index slot with
  | nil => cases h
  | cons name rest ih =>
      rcases g.steps_cons_cases name rest index slot with
        ⟨terminal, -, hstands, hsteps⟩ | ⟨nullable, hstands, hsteps⟩ | ⟨-, hsteps⟩
      · rw [hsteps] at h
        rcases List.mem_cons.mp h with rfl | h
        · exact hstands
        · exact ih h
      · rw [hsteps] at h
        rcases List.mem_cons.mp h with rfl | h
        · exact hstands
        · exact ih h
      · rw [hsteps] at h
        exact ih h

theorem filterMap_index?_steps (g : Grammar) (expansion : Expansion) (index slot : Nat) :
    (g.steps index slot expansion).filterMap Step.index? =
      List.range' index ((g.steps index slot expansion).countP fun step => !step.isCall) := by
  induction expansion generalizing index slot with
  | nil => rfl
  | cons name rest ih =>
      rcases g.steps_cons_cases name rest index slot with
        ⟨terminal, -, -, hsteps⟩ | ⟨nullable, -, hsteps⟩ | ⟨-, hsteps⟩
      · rw [hsteps, List.countP_cons_of_pos rfl, List.range'_succ, ← ih]
        rfl
      · rw [hsteps, List.countP_cons_of_neg Bool.false_ne_true, ← ih]
        rfl
      · rw [hsteps, ih]

theorem filterMap_slot?_steps (g : Grammar) (expansion : Expansion) (index slot : Nat) :
    (g.steps index slot expansion).filterMap Step.slot? =
      List.range' slot ((g.steps index slot expansion).countP Step.isCall) := by
  induction expansion generalizing index slot with
  | nil => rfl
  | cons name rest ih =>
      rcases g.steps_cons_cases name rest index slot with
        ⟨terminal, -, -, hsteps⟩ | ⟨nullable, -, hsteps⟩ | ⟨-, hsteps⟩
      · rw [hsteps, List.countP_cons_of_neg Bool.false_ne_true, ← ih]
        rfl
      · rw [hsteps, List.countP_cons_of_pos rfl, List.range'_succ, ← ih]
        rfl
      · rw [hsteps, ih]

end Grammar

/-! ## Routines -/

/-- The steps of a branch spell an expansion: they have its names, each does what its name
stands for, and terminals and symbols are numbered in order from zero. -/
structure Branch.Spells (g : Grammar) (b : Branch) (expansion : Expansion) : Prop where
  names : b.steps.map Step.name = expansion
  standsFor : ∀ step ∈ b.steps, step.StandsFor g
  indices : b.steps.filterMap Step.index? = List.range b.terminalCount
  slots : b.steps.filterMap Step.slot? = List.range b.nodeCount

/-- The largest of some numbers, and zero where there are none. -/
structure IsMaximum (counts : List Nat) (maximum : Nat) : Prop where
  upper : ∀ count ∈ counts, count ≤ maximum
  attained : counts ≠ [] → maximum ∈ counts
  zero : counts = [] → maximum = 0

/-- A routine has a branch for each non-empty expansion of a symbol, in their order, that
spells it, and its fallback is the first empty one. -/
structure Routine.AccountsFor (g : Grammar) (r : Routine) (data : Symbol) : Prop where
  rising : (r.branches.map Branch.expansion).Pairwise (· < ·)
  mem_iff {i : Nat} : i ∈ r.branches.map Branch.expansion ↔
    ∃ expansion, data.expansions[i]? = some expansion ∧ expansion ≠ []
  spells : ∀ b ∈ r.branches, ∃ expansion,
    data.expansions[b.expansion]? = some expansion ∧ b.Spells g expansion
  fallback_eq_some {i : Nat} : r.fallback = some i ↔
    data.expansions[i]? = some [] ∧ ∀ j < i, data.expansions[j]? ≠ some []
  fallback_eq_none : r.fallback = none ↔ [] ∉ data.expansions
  nodeCount : IsMaximum (r.branches.map Branch.nodeCount) r.nodeCount
  terminalCount : IsMaximum (r.branches.map Branch.terminalCount) r.terminalCount

theorem isMaximum_foldl_max (counts : List Nat) : IsMaximum counts (counts.foldl max 0) := by
  rw [List.foldl_max, Nat.zero_max]
  cases h : counts.max? with
  | none =>
      obtain rfl := List.max?_eq_none_iff.mp h
      exact ⟨fun _ hcount => absurd hcount List.not_mem_nil, fun hne => absurd rfl hne, fun _ => rfl⟩
  | some maximum =>
      obtain ⟨hmem, hupper⟩ := List.max?_eq_some_iff.mp h
      exact ⟨hupper, fun _ => hmem, fun hnil => absurd (hnil ▸ hmem) List.not_mem_nil⟩

section Routine

variable {g : Grammar} {settings : Settings} {name : String} {data : Symbol}

theorem spells_of_mem_dispatch
    (hresolves : ∀ expansion ∈ data.expansions, ∀ token ∈ expansion,
      (g.resolve token).isSome = true)
    {b : Branch} (hb : b ∈ (g.dispatch name data).1) :
    ∃ expansion, data.expansions[b.expansion]? = some expansion ∧ b.Spells g expansion := by
  obtain ⟨leading, names, hmem, hsteps, -⟩ := Grammar.exists_of_mem_branches hb
  have hat := List.mk_mem_zipIdx_iff_getElem?.mp hmem
  refine ⟨leading :: names, hat, ?_, ?_, ?_, ?_⟩
  · rw [hsteps]
    exact Grammar.map_name_steps (hresolves _ (List.mem_of_getElem? hat))
  · rw [hsteps]
    exact fun _ => Grammar.standsFor_of_mem_steps
  · rw [Branch.terminalCount, hsteps, List.range_eq_range']
    exact g.filterMap_index?_steps _ 0 0
  · rw [Branch.nodeCount, hsteps, List.range_eq_range']
    exact g.filterMap_slot?_steps _ 0 0

theorem accountsFor_routine
    (hresolves : ∀ expansion ∈ data.expansions, ∀ token ∈ expansion,
      (g.resolve token).isSome = true) :
    (g.routine settings name data).AccountsFor g data where
  rising := (pairwise_zipIdx_snd data.expansions).sublist
    (g.map_expansion_dispatch_sublist name data)
  mem_iff := Grammar.mem_map_expansion_dispatch
  spells _ hb := spells_of_mem_dispatch hresolves hb
  fallback_eq_some {i} := by
    show data.expansions.idxOf? [] = some i ↔ _
    rw [Symbol.idxOf?_nil_eq_some_iff, and_congr_right_iff]
    intro hat
    simp [Symbol.Repeats, hat]
  fallback_eq_none := List.idxOf?_eq_none_iff
  nodeCount := isMaximum_foldl_max _
  terminalCount := isMaximum_foldl_max _

end Routine

/-! ## Slots -/

namespace C

/-- The slot that a check fills, if it fills one. -/
def Check.slot? : Check → Option Nat
  | .eat _ => none
  | .fill slot _ => some slot

/-- The slot that an argument is taken from, if it is taken from one. -/
def Argument.slot? : Argument → Option Nat
  | .value _ => none
  | .node slot => some slot

/-- The slots that a call of a user action is passed. -/
def ActionCall.slots (call : ActionCall) : List Nat := call.arguments.filterMap Argument.slot?

/-- The slots that a case fills, and those that it passes. -/
def Case.slots (c : Case) : List Nat := c.checks.filterMap Check.slot? ++ c.action.slots

/-- Every place of a slot in a function. -/
def Function.slots (f : Function) : List Nat :=
  f.cases.flatMap Case.slots ++ f.fallback.toList.flatMap ActionCall.slots

/-- The declaration of an array of slots. -/
def slotDeclaration (settings : Settings) (slotCount : Nat) : String :=
  "\t" ++ nodePointer settings ++ " nodes[" ++ toString slotCount ++ "];"

/-- The slots of a function are in its array, and the array is declared if it has slots. -/
structure SlotsFit (settings : Settings) (f : Function) : Prop where
  lt : ∀ slot ∈ f.slots, slot < f.slotCount
  declared : f.slots ≠ [] → slotDeclaration settings f.slotCount ∈ f.lines settings

variable {settings : Settings}

theorem slots_ofBranch (symbol : String) (b : Branch) :
    (Case.ofBranch settings symbol b).slots =
      b.steps.filterMap Step.slot? ++ b.steps.filterMap Step.slot? := by
  have hcheck : Check.slot? ∘ Check.ofStep settings = Step.slot? := by
    funext step
    cases step <;> rfl
  have hargument : Argument.slot? ∘ Argument.ofStep = Step.slot? := by
    funext step
    cases step <;> rfl
  simp only [Case.slots, ActionCall.slots, Case.ofBranch, List.filterMap_map, hcheck, hargument]

theorem mem_slots_ofRoutine {r : Routine} {slot : Nat}
    (h : slot ∈ (Function.ofRoutine settings r).slots) :
    ∃ b ∈ r.branches, slot ∈ b.steps.filterMap Step.slot? := by
  rcases List.mem_append.mp h with hcase | hfallback
  · obtain ⟨c, hc, hslot⟩ := List.mem_flatMap.mp hcase
    obtain ⟨b, hb, rfl⟩ := List.mem_map.mp hc
    rw [slots_ofBranch, List.mem_append, or_self] at hslot
    exact ⟨b, List.mem_of_mem_filter hb, hslot⟩
  · obtain ⟨call, hcall, hslot⟩ := List.mem_flatMap.mp hfallback
    obtain ⟨i, -, rfl⟩ := Option.map_eq_some_iff.mp (Option.mem_toList.mp hcall)
    cases hslot

theorem slotsFit_ofRoutine {g : Grammar} {data : Symbol} {r : Routine}
    (h : r.AccountsFor g data) : SlotsFit settings (.ofRoutine settings r) := by
  have hlt : ∀ slot ∈ (Function.ofRoutine settings r).slots, slot < r.nodeCount := by
    intro slot hslot
    obtain ⟨b, hb, hslot⟩ := mem_slots_ofRoutine hslot
    obtain ⟨expansion, -, hspells⟩ := h.spells b hb
    rw [hspells.slots, List.mem_range] at hslot
    exact Nat.lt_of_lt_of_le hslot (h.nodeCount.upper _ (List.mem_map_of_mem hb))
  refine ⟨hlt, fun hne => ?_⟩
  obtain ⟨slot, hslot⟩ := List.exists_mem_of_ne_nil _ hne
  have hpos : 0 < (Function.ofRoutine settings r).slotCount :=
    Nat.zero_lt_of_lt (hlt slot hslot)
  have hdeclared : slotDeclaration settings (Function.ofRoutine settings r).slotCount ∈
      slotLines settings (Function.ofRoutine settings r).slotCount := by
    rw [slotLines, if_pos hpos]
    exact List.mem_singleton_self _
  simp only [Function.lines, List.mem_append]
  tauto

end C

/-! ## Parsers -/

/-- If all names of a grammar stand for something, the routine of a symbol accounts for the
symbol's expansions, and its function has room for its slots. -/
theorem routine_accountsFor {g : Grammar} {name : String} {data : Symbol}
    (hnames : g.undefined? g.mentionedNames = none)
    (hfind : g.symbols.find? name = some data) (settings : Settings) :
    (∀ start, g.startSymbol settings = .ok start →
      ∃ p, Parser.build g settings .ignore = .ok p) ∧
    (∀ policy p, Parser.build g settings policy = .ok p →
      p.routine? name = some (g.routine settings name data) ∧
      C.Function.ofRoutine settings (g.routine settings name data) ∈
        (C.Program.ofParser p).functions) ∧
    (g.routine settings name data).AccountsFor g data ∧
    C.SlotsFit settings (.ofRoutine settings (g.routine settings name data)) := by
  have hentry := Table.find?_eq_some_iff.mp hfind
  have hresolves : ∀ expansion ∈ data.expansions, ∀ token ∈ expansion,
      (g.resolve token).isSome = true := by
    intro expansion hmem token htoken
    have hmentioned : token ∈ g.mentionedNames := List.mem_flatMap.mpr
      ⟨data, List.mem_map_of_mem hentry, List.mem_flatten.mpr ⟨expansion, hmem, htoken⟩⟩
    have hdefined := List.find?_eq_none.mp hnames token hmentioned
    rwa [Bool.not_eq_true, Option.isNone_eq_false_iff] at hdefined
  have haccounts : (g.routine settings name data).AccountsFor g data :=
    accountsFor_routine hresolves
  refine ⟨?_, ?_, haccounts, C.slotsFit_ofRoutine haccounts⟩
  · intro start hstart
    exact ⟨_, Parser.build_of_defined hstart hnames⟩
  · intro policy p hbuild
    rw [Parser.routine?_of_build hbuild, hfind, Option.map_some]
    have hroutine : g.routine settings name data ∈ p.routines :=
      (Parser.mem_routines_iff hbuild).mpr ⟨_, hentry, rfl⟩
    exact ⟨rfl, (C.mem_functions_iff hbuild).mpr ⟨_, hroutine, rfl⟩⟩

/-- A grammar whose symbol `s` has empty expansions between the others, and tokens of both
kinds in any order. -/
def spaced : Grammar where
  header := .ofItems [.terminal "X" "x", .terminal "Y" "y"]
  symbols := Symbol.tableOfRules [⟨"s", ["X", "t", "X", "t"]⟩, ⟨"s", []⟩, ⟨"s", ["t", "Y"]⟩,
    ⟨"s", []⟩, ⟨"t", ["Y"]⟩]

/-- The same grammar with its sets. -/
def spacedAnalyzed : Grammar :=
  { spaced with symbols := (spaced.analysis .follow).symbols }

/-- The symbol `s` there. -/
def spacedSymbol : Symbol where
  expansions := [["X", "t", "X", "t"], [], ["t", "Y"], []]
  marked := true
  first := .ofList [0, 1]

/-- The routine of `s`. -/
def spacedRoutine : Routine :=
  spacedAnalyzed.routine (.ofHeader spaced.header) "s" spacedSymbol

theorem routine_accountsFor_spaced :
    spacedAnalyzed.undefined? spacedAnalyzed.mentionedNames = none ∧
      spacedAnalyzed.symbols.find? "s" = some spacedSymbol ∧
      spacedRoutine.AccountsFor spacedAnalyzed spacedSymbol ∧
      spacedRoutine.branches.map Branch.expansion = [0, 2] ∧ spacedRoutine.fallback = some 1 ∧
      (C.Function.ofRoutine (.ofHeader spaced.header) spacedRoutine).slots = [0, 1, 0, 1, 0, 0] ∧
      C.SlotsFit (.ofHeader spaced.header)
        (.ofRoutine (.ofHeader spaced.header) spacedRoutine) := by
  have hnames : spacedAnalyzed.undefined? spacedAnalyzed.mentionedNames = none := by rfl
  have hfind : spacedAnalyzed.symbols.find? "s" = some spacedSymbol := by rfl
  obtain ⟨-, -, haccounts, hfits⟩ := routine_accountsFor hnames hfind (.ofHeader spaced.header)
  exact ⟨hnames, hfind, haccounts, by decide, by decide, by decide, hfits⟩

end Descent
