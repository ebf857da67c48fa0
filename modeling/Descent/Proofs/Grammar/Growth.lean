import Descent.Proofs.Analysis.Result
import Descent.Proofs.Grammar.Fresh

/-!
# Grammars that grow

Defining terminals, adding expansions and running an analysis in between never
takes anything away. Terminals and symbols keep their positions and symbols keep
their expansions (`grows_after`), so a name that stands for something goes on
standing for the same thing, unless a symbol's name is taken for a terminal; and
then the grammar is at fault for good. The right sides of a grammar without a
fault are therefore among those of every grammar without a fault that it grows
into (`Grows.rightSides_subset`).
-/

namespace Descent.Grammar

open Analysis

variable {g g' : Grammar}

/-! ## Grammars without a fault -/

theorem symbolFault?_eq_none (h : g.fault? = none) {name : String} {s : Symbol}
    (hentry : (name, s) ∈ g.symbols.entries) : g.symbolFault? name s = none :=
  List.findSome?_eq_none_iff.mp h _ hentry

/-- No symbol is named like a terminal. -/
theorem not_terminal_of_valid (h : g.fault? = none) {name : String}
    (hkey : name ∈ g.symbols.keys) : name ∉ g.header.terminals.keys := by
  obtain ⟨entry, hentry, rfl⟩ := List.mem_map.mp hkey
  have hnone := symbolFault?_eq_none h hentry
  intro hterminal
  rw [symbolFault?, Header.isTerminal, if_pos (Table.contains_iff.mpr hterminal)]
    at hnone
  cases hnone

/-- Every name in an expansion stands for something. -/
theorem exists_resolve_of_valid (h : g.fault? = none) {n : Nat} {s : Symbol}
    (hat : symbolAt? g.symbols n = some s) {expansion : Expansion}
    (hmem : expansion ∈ s.expansions) {name : String} (hname : name ∈ expansion) :
    ∃ token, g.resolve name = some token := by
  obtain ⟨key, -, hfind⟩ := exists_position?_of_symbolAt hat
  have hnone := symbolFault?_eq_none h (Table.find?_eq_some_iff.mp hfind)
  rw [symbolFault?] at hnone
  split at hnone
  · cases hnone
  · have hall := List.find?_eq_none.mp (Option.map_eq_none_iff.mp hnone) name
      (List.mem_flatten.mpr ⟨expansion, hmem, hname⟩)
    exact Option.ne_none_iff_exists'.mp fun heq => hall (by rw [heq]; rfl)

theorem fault?_eq : g.fault? = (outline g.symbols).findSome? fun line =>
    if g.header.isTerminal line.1 then some (.expansionForTerminal line.1)
    else (g.undefined? line.2.flatten).map .undefined := by
  rw [fault?, outline, List.findSome?_map]
  rfl

/-- Faults are a matter of the terminals and the outline. -/
theorem fault?_congr (hterminals : g'.header.terminals = g.header.terminals)
    (hout : outline g'.symbols = outline g.symbols) : g'.fault? = g.fault? := by
  rw [fault?_eq, fault?_eq, hout]
  unfold undefined? Header.isTerminal
  rw [resolve_congr hterminals hout, hterminals]

theorem fault?_of_analyze (h : g.analyze mode = .ok g') : g'.fault? = none := by
  rw [fault?_congr (congrArg Header.terminals (header_of_analyze h))
    (by rw [symbols_of_analyze h, outline_analysis])]
  exact (analyze_eq_ok h).1

/-! ## Histories -/

/-- What may happen to a grammar. -/
inductive Change
  | setTerminal (name value : String)
  | addExpansion (name : String) (expansion : Expansion)
  /-- The grammar stays as it is if it is not fit for analysis. -/
  | analyze (mode : Mode)
deriving DecidableEq

/-- The grammar after a change. -/
def Change.apply (g : Grammar) : Change → Grammar
  | .setTerminal name value => g.setTerminal name value
  | .addExpansion name expansion => g.addExpansion name expansion
  | .analyze mode => (g.tryAnalyze mode).1

/-- The grammar after a number of changes. -/
def after (g : Grammar) (changes : List Change) : Grammar :=
  changes.foldl Change.apply g

/-- Running an analysis either changes the symbols as the analysis does or
changes nothing. -/
theorem apply_analyze (g : Grammar) (mode : Mode) :
    g.fault? = none ∧ Change.apply g (.analyze mode) =
        { g with symbols := (g.analysis mode).symbols } ∨
      Change.apply g (.analyze mode) = g := by
  cases hfault : g.fault? with
  | none =>
      refine Or.inl ⟨rfl, ?_⟩
      rw [Change.apply, tryAnalyze, analyze_of_valid hfault]
  | some fault =>
      refine Or.inr ?_
      rw [Change.apply, tryAnalyze, analyze, hfault]

/-! ## Growth -/

/-- What is there in the first grammar is there in the second, in the same
place. -/
structure Grows (g g' : Grammar) : Prop where
  terminals {name : String} {id : Nat}
    (h : g.header.terminalId? name = some id) :
    g'.header.terminalId? name = some id
  symbols {n : Nat} {name : String} {s : Symbol}
    (h : g.symbols.at? n = some (name, s)) :
    ∃ s', g'.symbols.at? n = some (name, s') ∧ s.expansions ⊆ s'.expansions

theorem Grows.refl (g : Grammar) : Grows g g where
  terminals h := h
  symbols h := ⟨_, h, fun _ => id⟩

theorem Grows.trans {g'' : Grammar} (h : Grows g g') (h' : Grows g' g'') :
    Grows g g'' where
  terminals hname := h'.terminals (h.terminals hname)
  symbols hat := by
    obtain ⟨s', hat', hsub⟩ := h.symbols hat
    obtain ⟨s'', hat'', hsub'⟩ := h'.symbols hat'
    exact ⟨s'', hat'', fun _ he => hsub' (hsub he)⟩

theorem grows_of_outline
    (hterminals : g'.header.terminals = g.header.terminals)
    (hout : outline g'.symbols = outline g.symbols) : Grows g g' where
  terminals h := by
    rw [Header.terminalId?, hterminals]
    exact h
  symbols {n name s} h := by
    have hline := congrArg (fun lines => lines[n]?) hout
    have hentry : g.symbols.entries[n]? = some (name, s) := h
    simp only [outline, List.getElem?_map, hentry] at hline
    obtain ⟨⟨name', s'⟩, hentry', heq⟩ := Option.map_eq_some_iff.mp hline
    obtain ⟨rfl, hexp⟩ := Prod.mk.inj heq
    exact ⟨s', hentry', fun e he => hexp ▸ he⟩

theorem grows_setTerminal (name value : String) :
    Grows g (g.setTerminal name value) where
  terminals h := Table.position?_upsert h
  symbols h := ⟨_, h, fun _ => id⟩

theorem grows_addExpansion (name : String) (expansion : Expansion) :
    Grows g (g.addExpansion name expansion) where
  terminals h := h
  symbols h := by
    refine ⟨_, Table.at?_upsert h, fun e he => ?_⟩
    split
    · exact List.mem_append_left _ he
    · exact he

theorem grows_apply (change : Change) : Grows g (change.apply g) := by
  cases change with
  | setTerminal name value => exact grows_setTerminal name value
  | addExpansion name expansion => exact grows_addExpansion name expansion
  | analyze mode =>
      rcases apply_analyze g mode with ⟨-, h⟩ | h
      · rw [h]
        exact grows_of_outline rfl outline_analysis
      · rw [h]
        exact Grows.refl g

/-- Whatever happens to a grammar, it only grows. -/
theorem grows_after {changes : List Change} : Grows g (g.after changes) := by
  induction changes generalizing g with
  | nil => exact Grows.refl g
  | cons change changes ih => exact (grows_apply change).trans ih

/-! ## What growth keeps -/

theorem Grows.symbolAt (h : Grows g g') {n : Nat} {s : Symbol}
    (hat : symbolAt? g.symbols n = some s) :
    ∃ s', symbolAt? g'.symbols n = some s' ∧ s.expansions ⊆ s'.expansions := by
  obtain ⟨entry, hentry, rfl⟩ := Option.map_eq_some_iff.mp hat
  obtain ⟨s', hentry', hsub⟩ := h.symbols hentry
  exact ⟨s', Option.map_eq_some_iff.mpr ⟨_, hentry', rfl⟩, hsub⟩

/-- An empty expansion is an empty right side, whatever names stand for. -/
theorem Grows.nil_mem_rightSides (h : Grows g g') {n : Nat} {s : Symbol}
    (hat : symbolAt? g.symbols n = some s) (hnil : [] ∈ s.expansions) :
    [] ∈ g'.rightSides n := by
  obtain ⟨s', hat', hsub⟩ := h.symbolAt hat
  exact mem_rightSides.mpr ⟨s', hat', [], hsub hnil, rfl⟩

theorem Grows.resolve (h : Grows g g') (hvalid' : g'.fault? = none)
    {name : String} {token : Token} (hname : g.resolve name = some token) :
    g'.resolve name = some token := by
  cases token with
  | terminal id =>
      exact resolve_eq_some_terminal_iff.mpr
        (h.terminals (resolve_eq_some_terminal_iff.mp hname))
  | nonterminal n =>
      obtain ⟨-, hpos⟩ := resolve_eq_some_nonterminal_iff.mp hname
      obtain ⟨s, hat⟩ := Table.position?_eq_some_iff.mp hpos
      obtain ⟨s', hat', -⟩ := h.symbols hat
      have hkey : name ∈ g'.symbols.keys :=
        List.mem_map.mpr ⟨_, List.mem_of_getElem? hat', rfl⟩
      exact resolve_eq_some_nonterminal_iff.mpr
        ⟨not_terminal_of_valid hvalid' hkey,
          Table.position?_eq_some_iff.mpr ⟨s', hat'⟩⟩

/-- Right sides stay right sides, if all names stand for something before and no
symbol is named like a terminal afterwards. -/
theorem Grows.rightSides_subset (h : Grows g g') (hvalid : g.fault? = none)
    (hvalid' : g'.fault? = none) {n : Nat} {right : List Token}
    (mem : right ∈ g.rightSides n) : right ∈ g'.rightSides n := by
  obtain ⟨s, hat, expansion, hexp, rfl⟩ := mem_rightSides.mp mem
  obtain ⟨s', hat', hsub⟩ := h.symbolAt hat
  refine mem_rightSides.mpr ⟨s', hat', expansion, hsub hexp, ?_⟩
  refine List.filterMap_congr fun name hname => ?_
  obtain ⟨token, htoken⟩ := exists_resolve_of_valid hvalid hat hexp hname
  rw [htoken, h.resolve hvalid' htoken]

end Descent.Grammar
