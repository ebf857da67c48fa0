import Descent.Parser.Basic
import Descent.Proofs.Analysis.Productions

/-!
# What is built

A parser that is built has a routine for every symbol and for nothing else, each
made from that symbol alone (`routine?_of_build`), and every name that an
expansion mentions stands for something (`resolve_of_build`).

The steps of an expansion follow its names one by one. A name makes the step
that its meaning calls for, so a walk along the steps is a walk along the
tokens.
-/

namespace Descent

namespace Grammar

variable {g : Grammar} {name : String} {rest : Expansion} {index slot : Nat}

/-! ## Steps -/

theorem terminal?_of_resolve {t : Nat} (h : g.resolve name = some (.terminal t)) :
    ∃ value, g.header.terminal? t = some ⟨name, value⟩ ∧
      g.header.findTerminal? name = some ⟨name, value⟩ := by
  obtain ⟨value, hat⟩ := Table.position?_eq_some_iff.mp (resolve_eq_some_terminal_iff.mp h)
  have hfind := Table.find?_eq_some_iff.mpr (List.mem_of_getElem? hat)
  refine ⟨value, ?_, ?_⟩
  · rw [Header.terminal?, hat, Option.map_some]
  · rw [Header.findTerminal?, hfind, Option.map_some]

theorem terminalId?_eq_none_iff :
    g.header.terminalId? name = none ↔ g.header.findTerminal? name = none := by
  rw [Header.terminalId?, Header.findTerminal?, Option.map_eq_none_iff,
    Table.position?_eq_none_iff, Table.find?_eq_none_iff]

theorem resolve_of_findTerminal?_eq_none
    (h : g.header.findTerminal? name = none) :
    g.resolve name = (g.symbols.position? name).map .nonterminal := by
  rw [resolve, terminalId?_eq_none_iff.mpr h]

theorem findTerminal?_eq_none (h : ∀ t, g.resolve name ≠ some (.terminal t)) :
    g.header.findTerminal? name = none := by
  refine terminalId?_eq_none_iff.mp ?_
  cases hid : g.header.terminalId? name with
  | none => rfl
  | some id => exact absurd (by rw [resolve, hid]) (h id)

theorem findTerminal?_of_nonterminal {n : Nat}
    (h : g.resolve name = some (.nonterminal n)) :
    g.header.findTerminal? name = none ∧ g.symbols.position? name = some n := by
  have hnone : g.header.findTerminal? name = none :=
    findTerminal?_eq_none fun t => by simp [h]
  rw [resolve_of_findTerminal?_eq_none hnone] at h
  obtain ⟨m, hm, heq⟩ := Option.map_eq_some_iff.mp h
  injection heq with heq
  exact ⟨hnone, heq ▸ hm⟩

theorem steps_of_terminal {t : Nat} (h : g.resolve name = some (.terminal t)) :
    ∃ value, g.header.value? t = some value ∧
      g.steps index slot (name :: rest) =
        .consume ⟨name, value⟩ index :: g.steps (index + 1) slot rest := by
  obtain ⟨value, hterminal, hfind⟩ := terminal?_of_resolve h
  exact ⟨value, by rw [Header.value?, hterminal, Option.map_some], by rw [steps, hfind]⟩

theorem steps_of_nonterminal {n : Nat}
    (h : g.resolve name = some (.nonterminal n)) :
    ∃ nullable, g.steps index slot (name :: rest) =
      .call name slot nullable :: g.steps index (slot + 1) rest := by
  obtain ⟨hnone, hposition⟩ := findTerminal?_of_nonterminal h
  obtain ⟨symbol, hfind, -⟩ := find?_of_position? hposition
  exact ⟨symbol.nullable, by rw [steps, hnone, hfind]⟩

theorem steps_of_unresolved (h : g.resolve name = none) :
    g.steps index slot (name :: rest) = g.steps index slot rest := by
  have hnone : g.header.findTerminal? name = none :=
    findTerminal?_eq_none fun t => by simp [h]
  have hfind : g.symbols.find? name = none := by
    rw [resolve_of_findTerminal?_eq_none hnone, Option.map_eq_none_iff,
      Table.position?_eq_none_iff] at h
    exact Table.find?_eq_none_iff.mpr h
  rw [steps, hnone, hfind]

/-! ## Branches -/

/-- There is a branch for every non-empty expansion, and it takes that expansion's steps. -/
theorem map_branches (g : Grammar) (symbol : String) (claims : Prediction.Claims)
    (es : List (Expansion × Nat)) :
    (g.branches symbol claims es).1.map (fun b => (b.expansion, b.steps)) =
      (es.filter fun e => !e.1.isEmpty).map fun e => (e.2, g.steps 0 0 e.1) := by
  induction es generalizing claims with
  | nil => rfl
  | cons e es ih =>
      obtain ⟨expansion, i⟩ := e
      cases expansion with
      | nil => exact ih claims
      | cons leading names =>
          rw [branches, List.map_cons, ih, List.filter_cons_of_pos (by simp), List.map_cons]

variable {symbol : String} {data : Symbol}

theorem map_expansion_dispatch (g : Grammar) (symbol : String) (data : Symbol) :
    (g.dispatch symbol data).1.map Branch.expansion =
      (data.expansions.zipIdx.filter fun e => !e.1.isEmpty).map Prod.snd := by
  have hboth := congrArg (List.map Prod.fst) (g.map_branches symbol [] data.expansions.zipIdx)
  rwa [List.map_map, List.map_map] at hboth

theorem mem_map_expansion_dispatch {i : Nat} :
    i ∈ (g.dispatch symbol data).1.map Branch.expansion ↔
      ∃ expansion, data.expansions[i]? = some expansion ∧ expansion ≠ [] := by
  rw [map_expansion_dispatch]
  simp only [List.mem_map, List.mem_filter, Prod.exists, exists_eq_right,
    List.mk_mem_zipIdx_iff_getElem?, Bool.not_eq_true', List.isEmpty_eq_false_iff]

theorem map_expansion_dispatch_sublist (g : Grammar) (symbol : String) (data : Symbol) :
    ((g.dispatch symbol data).1.map Branch.expansion).Sublist
      (data.expansions.zipIdx.map Prod.snd) := by
  rw [map_expansion_dispatch]
  exact List.filter_sublist.map Prod.snd

theorem nodup_expansion_dispatch (g : Grammar) (symbol : String) (data : Symbol) :
    ((g.dispatch symbol data).1.map Branch.expansion).Nodup :=
  (map_expansion_dispatch_sublist g symbol data).nodup
    ((pairwise_zipIdx_snd data.expansions).imp Nat.ne_of_lt)

end Grammar

/-! ## Parsers -/

namespace Parser

open Grammar

variable {g : Grammar} {settings : Settings} {policy : ConflictPolicy}
  {p : Parser}

theorem underPolicy_eq_ok_iff {p' : Parser} :
    p.underPolicy policy = .ok p' ↔ p' = p ∧ (policy = .deny → p.conflicts = []) := by
  cases policy with
  | ignore => simp [underPolicy, eq_comm]
  | warn => simp [underPolicy, eq_comm]
  | deny =>
      simp only [underPolicy]
      split
      · next hnil => simp [hnil, eq_comm]
      · next hcons => simp [hcons]

/-- A parser is built when the start symbol is settled, all names stand for something, and
the policy puts up with the conflicts. -/
theorem build_eq_ok_iff :
    build g settings policy = .ok p ↔
      ∃ start, g.startSymbol settings = .ok start ∧
        g.undefined? g.mentionedNames = none ∧
        p = g.parserFrom settings start ∧ (policy = .deny → g.conflicts = []) := by
  unfold build
  split
  · next e hstart => simp [hstart]
  · next start hstart =>
      split
      · next name hname => simp [hname]
      · next hname => simp [hstart, hname, underPolicy_eq_ok_iff, Grammar.parserFrom]

theorem build_eq_ok (h : build g settings policy = .ok p) :
    g.undefined? g.mentionedNames = none ∧
      ∃ start, p = g.parserFrom settings start := by
  obtain ⟨start, -, hnames, hp, -⟩ := build_eq_ok_iff.mp h
  exact ⟨hnames, start, hp⟩

theorem settings_of_build (h : build g settings policy = .ok p) : p.settings = settings := by
  obtain ⟨-, start, rfl⟩ := build_eq_ok h
  rfl

theorem mem_routines_iff (h : build g settings policy = .ok p) {r : Routine} :
    r ∈ p.routines ↔ ∃ entry ∈ g.symbols.entries, g.routine settings entry.1 entry.2 = r := by
  obtain ⟨-, start, rfl⟩ := build_eq_ok h
  exact List.mem_map

/-- The entry point parses a symbol of the grammar. -/
theorem start_mem_keys (h : build g settings policy = .ok p) {name : String}
    (hstart : p.start = some name) : name ∈ g.symbols.keys := by
  obtain ⟨start, hok, -, rfl, -⟩ := build_eq_ok_iff.mp h
  have hname : start = some name := hstart
  subst hname
  unfold startSymbol at hok
  split at hok
  · split at hok
    · next hmem =>
        injection hok with hok
        injection hok with hok
        exact hok ▸ Table.contains_iff.mp hmem
    · cases hok
  · injection hok with hok
    exact List.mem_of_head? hok

/-- There is an entry point wherever there is a routine. -/
theorem isSome_start (h : build g settings policy = .ok p) {r : Routine}
    (hr : r ∈ p.routines) : p.start.isSome = true := by
  obtain ⟨entry, hentry, -⟩ := (mem_routines_iff h).mp hr
  obtain ⟨start, hok, -, rfl, -⟩ := build_eq_ok_iff.mp h
  have hkeys : g.symbols.keys ≠ [] := List.ne_nil_of_mem (List.mem_map_of_mem hentry)
  unfold startSymbol at hok
  split at hok
  · split at hok
    · injection hok with hok
      exact hok ▸ rfl
    · cases hok
  · injection hok with hok
    exact hok ▸ List.isSome_head?.mpr hkeys

/-- Only the policy can refuse a grammar whose start symbol is settled and whose
names all stand for something. -/
theorem build_of_defined {start : Option String}
    (hstart : g.startSymbol settings = .ok start)
    (hnames : g.undefined? g.mentionedNames = none) :
    build g settings policy =
      (g.parserFrom settings start).underPolicy policy := by
  simp only [build, hstart, hnames]

theorem find?_map_routine {name : String} {entries : List (String × Symbol)} :
    (entries.map fun entry => g.routine settings entry.1 entry.2).find?
        (fun routine => routine.symbol == name) =
      (entries.lookup name).map (g.routine settings name) := by
  induction entries with
  | nil => rfl
  | cons entry entries ih =>
      rw [List.map_cons, List.find?_cons, Table.lookup_cons, ih]
      by_cases h : name = entry.1
      · subst h
        rw [if_pos rfl, show (Routine.symbol _ == entry.1) = true from
          beq_self_eq_true _]
        rfl
      · rw [if_neg h, show (Routine.symbol _ == name) = false from
          beq_false_of_ne fun heq => h heq.symm]

/-- There is a routine for every symbol and for nothing else. -/
theorem routine?_of_build (h : build g settings policy = .ok p) (name : String) :
    p.routine? name =
      (g.symbols.find? name).map (g.routine settings name) := by
  obtain ⟨-, start, rfl⟩ := build_eq_ok h
  exact find?_map_routine

theorem conflicts_of_build (h : build g settings policy = .ok p)
    (hconf : p.conflicts = []) {name : String} {symbol : Symbol}
    (hfind : g.symbols.find? name = some symbol) :
    (g.dispatch name symbol).2 = [] := by
  obtain ⟨-, start, rfl⟩ := build_eq_ok h
  exact List.flatMap_eq_nil_iff.mp hconf (name, symbol)
    (Table.find?_eq_some_iff.mp hfind)

theorem conflicts_of_build_deny (h : build g settings .deny = .ok p) :
    p.conflicts = [] := by
  obtain ⟨start, -, -, rfl, hconflicts⟩ := build_eq_ok_iff.mp h
  exact hconflicts rfl

theorem resolve_of_build (h : build g settings policy = .ok p) {symbol : Symbol}
    (hsymbol : symbol ∈ g.symbols.values) {expansion : Expansion}
    (hmem : expansion ∈ symbol.expansions) {name : String}
    (hname : name ∈ expansion) : (g.resolve name).isSome = true := by
  have hdefined := List.find?_eq_none.mp (build_eq_ok h).1 name
    (List.mem_flatMap.mpr ⟨symbol, hsymbol,
      List.mem_flatten.mpr ⟨expansion, hmem, hname⟩⟩)
  rw [Bool.not_eq_true, Option.isNone_eq_false_iff] at hdefined
  exact hdefined

/-- Of an expansion no name is lost when its names are resolved. -/
theorem map_resolve_of_build (h : build g settings policy = .ok p)
    {symbol : Symbol} (hsymbol : symbol ∈ g.symbols.values)
    {expansion : Expansion} (hmem : expansion ∈ symbol.expansions) :
    expansion.map g.resolve =
      (expansion.filterMap g.resolve).map some :=
  Grammar.map_resolve_eq fun _ hname => resolve_of_build h hsymbol hmem hname

end Parser

end Descent
