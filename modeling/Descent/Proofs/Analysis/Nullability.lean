import Descent.Proofs.Analysis.Result
import Descent.Proofs.Grammar.Fresh

/-!
# Nullability is exact

A symbol without any expansion counts as nullable. Derivations know nothing of
this, so the comparison is with the completed grammar, in which such a symbol
has the empty expansion. What an analysis calls nullable, in either mode, is
what derives the empty form there (`nullableAt_iff`).

Derivations do not see in which order symbols, expansions and terminals are
declared (`Reordered.derives_nil`): the symbols of one order, by their names,
give closed facts about the other.
-/

namespace Descent

/-- The symbol with the empty expansion, if it has no expansion at all. -/
def Symbol.completed (s : Symbol) : Symbol :=
  if s.expansions = [] then s.addExpansion [] else s

namespace Grammar

/-- The grammar in which a symbol without any expansion expands to nothing. -/
def completed (g : Grammar) : Grammar :=
  { g with symbols := g.symbols.map Symbol.completed }

open Analysis FirstFacts

variable {g g' a a' : Grammar} {mode mode' : Mode} {f : FirstFacts}

/-! ## The completed grammar -/

theorem resolve_completed : g.completed.resolve = g.resolve :=
  resolve_of_keys rfl Table.keys_map

theorem mem_expansions_completed {s : Symbol} {expansion : Expansion} :
    expansion ∈ s.completed.expansions ↔
      expansion ∈ s.expansions ∨ expansion = [] ∧ s.expansions = [] := by
  unfold Symbol.completed
  split
  · next h => simp [Symbol.addExpansion, h]
  · next h => simp [h]

theorem mem_rightSides_completed {n : Nat} {right : List Token} :
    right ∈ g.completed.rightSides n ↔
      right ∈ g.rightSides n ∨
        right = [] ∧ ∃ s, symbolAt? g.symbols n = some s ∧ s.expansions = [] := by
  rw [mem_rightSides, mem_rightSides, resolve_completed, completed, symbolAt?_map]
  cases symbolAt? g.symbols n with
  | none => simp
  | some s =>
      simp only [Option.map_some, Option.some.injEq, exists_eq_left',
        mem_expansions_completed]
      constructor
      · rintro ⟨expansion, hmem | ⟨rfl, hnone⟩, rfl⟩
        · exact Or.inl ⟨expansion, hmem, rfl⟩
        · exact Or.inr ⟨rfl, hnone⟩
      · rintro (⟨expansion, hmem, rfl⟩ | ⟨rfl, hnone⟩)
        · exact ⟨expansion, Or.inl hmem, rfl⟩
        · exact ⟨[], Or.inr ⟨rfl, hnone⟩, rfl⟩

theorem closed_of_completed (hc : f.Closed g.completed mode) :
    f.Closed g mode where
  seeded mem := hc.seeded (mem_rightSides_completed.mpr (Or.inl mem))
  first mem := hc.first (mem_rightSides_completed.mpr (Or.inl mem))
  nullable mem := hc.nullable (mem_rightSides_completed.mpr (Or.inl mem))

/-- An empty right side that completion adds asks for the nullability of its
owner and for nothing else. -/
theorem closed_completed (hc : f.Closed g mode)
    (hbare : ∀ n s, symbolAt? g.symbols n = some s → s.expansions = [] →
      f.nullable n) : f.Closed g.completed mode where
  seeded mem := by
    rcases mem_rightSides_completed.mp mem with mem | ⟨hnil, _⟩
    · exact hc.seeded mem
    · cases hnil
  first mem h := by
    rcases mem_rightSides_completed.mp mem with mem | ⟨rfl, _⟩
    · exact hc.first mem h
    · exact h.elim
  nullable mem h := by
    rcases mem_rightSides_completed.mp mem with mem | ⟨_, s, hat, hnone⟩
    · exact hc.nullable mem h
    · exact hbare _ s hat hnone

/-! ## Before and after an analysis -/

theorem Fresh.factsOf_le_completed (h : g.Fresh) :
    factsOf g.symbols ≤ derived g.completed := by
  refine h.factsOf_le fun n s hat hnil => ?_
  refine .of_mem (mem_rightSides_completed.mpr (hnil.symm.imp ?_ ?_))
  · exact fun hnil => mem_rightSides.mpr ⟨s, hat, [], hnil, rfl⟩
  · exact fun hnone => ⟨rfl, s, hat, hnone⟩

theorem nullableAt_of_bare {symbols : SymbolTable} {n : Nat} {s : Symbol}
    (hat : symbolAt? symbols n = some s) (hnone : s.expansions = []) :
    nullableAt symbols n = true := by
  rw [nullableAt, hat, Option.any_some, Symbol.nullable, hnone]
  rfl

theorem closed_completed_analysis :
    (factsOf (g.analysis mode).symbols).Closed g.completed mode := by
  refine closed_completed closed_analysis fun n s hat hnone => ?_
  obtain ⟨s', hat', hexp⟩ := expansions_of_outline outline_analysis hat
  exact nullableAt_of_bare hat' (hexp.trans hnone)

/-- Nullability by position. -/
theorem nullableAt_iff (hfresh : g.Fresh) (hanalyze : g.analyze mode = .ok a)
    {n : Nat} :
    nullableAt a.symbols n = true ↔ g.completed.Derives [.nonterminal n] [] := by
  rw [symbols_of_analyze hanalyze]
  constructor
  · intro h
    have hclosed : (derived g.completed).Closed g mode :=
      closed_of_completed (derived_closed _).inMode
    exact (analysis_least hclosed hfresh.factsOf_le_completed).nullable h
  · intro h
    exact closed_completed_analysis.nullable_of_derives h

/-! ## The order of declaration -/

/-- Two grammars with the same terminals, symbols and expansions, declared in
any order. -/
structure Reordered (g g' : Grammar) : Prop where
  terminals (name : String) :
    name ∈ g.header.terminals.keys ↔ name ∈ g'.header.terminals.keys
  symbols (name : String) : name ∈ g.symbols.keys ↔ name ∈ g'.symbols.keys
  expansions {name : String} {s s' : Symbol}
    (h : g.symbols.find? name = some s) (h' : g'.symbols.find? name = some s')
    (expansion : Expansion) :
    expansion ∈ s.expansions ↔ expansion ∈ s'.expansions

theorem Reordered.symm (h : Reordered g g') : Reordered g' g where
  terminals name := (h.terminals name).symm
  symbols name := (h.symbols name).symm
  expansions hs hs' expansion := (h.expansions hs' hs expansion).symm

/-- A symbol has the same name as one of the other grammar for which a property
holds. -/
def Namesake (g g' : Grammar) (P : Nat → Prop) (n : Nat) : Prop :=
  ∃ name n', g.symbols.position? name = some n ∧
    g'.symbols.position? name = some n' ∧ P n'

/-- A right side vanishes in the other order of declaration as well. -/
theorem Reordered.vanishes (h : Reordered g g') {f' : FirstFacts}
    (hnull : ∀ n, f.nullable n → Namesake g g' f'.nullable n) :
    ∀ {names : List String}, f.Vanishes (names.filterMap g.resolve) →
      f'.Vanishes (names.filterMap g'.resolve) := by
  intro names
  induction names with
  | nil => exact id
  | cons name names ih =>
      intro hv
      cases hname : g.resolve name with
      | none =>
          have hname' : g'.resolve name = none := by
            rw [resolve_eq_none_iff, ← h.terminals, ← h.symbols]
            exact resolve_eq_none_iff.mp hname
          rw [List.filterMap_cons_none hname] at hv
          rw [List.filterMap_cons_none hname']
          exact ih hv
      | some token =>
          rw [List.filterMap_cons_some hname] at hv
          cases token with
          | terminal id => exact hv.elim
          | nonterminal n =>
              obtain ⟨hterminal, hpos⟩ :=
                resolve_eq_some_nonterminal_iff.mp hname
              obtain ⟨other, n', hother, hpos', hn'⟩ := hnull n hv.1
              obtain rfl := position?_inj hpos hother
              rw [h.terminals] at hterminal
              rw [List.filterMap_cons_some
                (resolve_eq_some_nonterminal_iff.mpr ⟨hterminal, hpos'⟩)]
              exact ⟨hn', ih hv.2⟩

/-- The names of the nullable symbols of one order are closed in the other. -/
theorem Reordered.closed (h : Reordered g g') :
    FirstFacts.Closed
      ⟨Namesake g g' (derived g').nullable, fun _ _ => True⟩ g mode where
  seeded _ := trivial
  first _ _ := trivial
  nullable {n right} mem hv := by
    obtain ⟨s, hat, expansion, hmem, rfl⟩ := mem_rightSides.mp mem
    obtain ⟨name, hpos, hfind⟩ := exists_position?_of_symbolAt hat
    have hkey : name ∈ g'.symbols.keys := by
      rw [← h.symbols, ← Table.isSome_find?_iff, hfind]
      rfl
    obtain ⟨s', hfind'⟩ := Option.isSome_iff_exists.mp
      (Table.isSome_find?_iff.mpr hkey)
    obtain ⟨n', hpos', hat'⟩ := position?_of_find? hfind'
    have mem' : expansion.filterMap g'.resolve ∈ g'.rightSides n' :=
      mem_rightSides.mpr
        ⟨s', hat', expansion, (h.expansions hfind hfind' expansion).mp hmem, rfl⟩
    refine ⟨name, n', hpos, hpos', ?_⟩
    exact (derived_closed g').nullable mem' (h.vanishes (fun _ hn => hn) hv)

/-- To derive the empty form does not depend on the order of declaration. -/
theorem Reordered.derives_nil (h : Reordered g g') {name : String} {n n' : Nat}
    (hpos : g.symbols.position? name = some n)
    (hpos' : g'.symbols.position? name = some n') :
    g.Derives [.nonterminal n] [] ↔ g'.Derives [.nonterminal n'] [] := by
  have hone : ∀ {g g' : Grammar} {n n' : Nat}, Reordered g g' →
      g.symbols.position? name = some n → g'.symbols.position? name = some n' →
      g.Derives [.nonterminal n] [] → g'.Derives [.nonterminal n'] [] := by
    intro g g' n n' h hpos hpos' hd
    have hclosed : FirstFacts.Closed
        ⟨Namesake g g' (derived g').nullable, fun _ _ => True⟩ g .follow :=
      h.closed
    obtain ⟨other, m, hother, hm, hd'⟩ := hclosed.nullable_of_derives hd
    obtain rfl := position?_inj hpos hother
    rw [hpos'] at hm
    injection hm with hm
    exact hm ▸ hd'
  exact ⟨hone h hpos hpos', hone h.symm hpos' hpos⟩

theorem find?_completed {name : String} {s : Symbol}
    (h : g.completed.symbols.find? name = some s) :
    ∃ s₀, g.symbols.find? name = some s₀ ∧ s = s₀.completed := by
  rw [completed, Table.find?_map] at h
  obtain ⟨s₀, hfind, rfl⟩ := Option.map_eq_some_iff.mp h
  exact ⟨s₀, hfind, rfl⟩

theorem Reordered.completed (h : Reordered g g') :
    Reordered g.completed g'.completed where
  terminals := h.terminals
  symbols name := by
    rw [Grammar.completed, Grammar.completed, Table.keys_map, Table.keys_map]
    exact h.symbols name
  expansions hs hs' expansion := by
    obtain ⟨s, hfind, rfl⟩ := find?_completed hs
    obtain ⟨s', hfind', rfl⟩ := find?_completed hs'
    have hall := h.expansions hfind hfind'
    have hnil : s.expansions = [] ↔ s'.expansions = [] := by
      simp only [List.eq_nil_iff_forall_not_mem, hall]
    rw [mem_expansions_completed, mem_expansions_completed, hall, hnil]

/-! ## Nullability by name -/

theorem position?_completed {name : String} :
    g.completed.symbols.position? name = g.symbols.position? name := by
  rw [Table.position?, Table.position?, completed, Table.keys_map]

theorem find?_nullable_iff (hfresh : g.Fresh) (hanalyze : g.analyze mode = .ok a)
    {name : String} {n : Nat} (hpos : g.symbols.position? name = some n) :
    ∃ s, a.symbols.find? name = some s ∧
      (s.nullable = true ↔ g.completed.Derives [.nonterminal n] []) := by
  obtain ⟨s, hfind, hat⟩ := find?_of_analyze hanalyze hpos
  have hnull := nullableAt_iff hfresh hanalyze (n := n)
  rw [nullableAt, hat, Option.any_some] at hnull
  exact ⟨s, hfind, hnull⟩

theorem Reordered.nullable_eq (h : Reordered g g') (hfresh : g.Fresh)
    (hfresh' : g'.Fresh) (hanalyze : g.analyze mode = .ok a)
    (hanalyze' : g'.analyze mode' = .ok a') (name : String) :
    (a.symbols.find? name).map Symbol.nullable =
      (a'.symbols.find? name).map Symbol.nullable := by
  by_cases hkey : name ∈ g.symbols.keys
  · obtain ⟨n, hpos⟩ := exists_position?_of_mem hkey
    obtain ⟨n', hpos'⟩ := exists_position?_of_mem ((h.symbols name).mp hkey)
    obtain ⟨s, hfind, hnull⟩ := find?_nullable_iff hfresh hanalyze hpos
    obtain ⟨s', hfind', hnull'⟩ := find?_nullable_iff hfresh' hanalyze' hpos'
    have hderives := h.completed.derives_nil
      (position?_completed.trans hpos) (position?_completed.trans hpos')
    have heq : s.nullable = s'.nullable :=
      Bool.eq_iff_iff.mpr (hnull.trans (hderives.trans hnull'.symm))
    rw [hfind, hfind', Option.map_some, Option.map_some, heq]
  · have hkey' : name ∉ g'.symbols.keys := mt (h.symbols name).mpr hkey
    rw [← keys_of_analyze hanalyze, ← Table.find?_eq_none_iff] at hkey
    rw [← keys_of_analyze hanalyze', ← Table.find?_eq_none_iff] at hkey'
    rw [hkey, hkey']

/-- Of a grammar that was read or built and then analyzed, in whatever mode,
the nullable symbols are those that derive the empty form, where a symbol
without any expansion counts as deriving it. Neither the mode nor the order of
declaration makes a difference. -/
theorem nullable_iff_derives_nil (hbuilt : Built g)
    (hanalyze : g.analyze mode = .ok a) :
    (∀ name n, g.symbols.position? name = some n →
      ∃ s, a.symbols.find? name = some s ∧
        (s.nullable = true ↔ g.completed.Derives [.nonterminal n] [])) ∧
    ∀ g' mode' a', Built g' → Reordered g g' → g'.analyze mode' = .ok a' →
      ∀ name, (a.symbols.find? name).map Symbol.nullable =
        (a'.symbols.find? name).map Symbol.nullable :=
  ⟨fun _ _ hpos => find?_nullable_iff hbuilt.fresh hanalyze hpos,
    fun _ _ _ hbuilt' hr hanalyze' =>
      hr.nullable_eq hbuilt.fresh hbuilt'.fresh hanalyze hanalyze'⟩

/-- A grammar whose symbol `top` vanishes by way of `mid` and of `gap`, which
has no expansion. -/
def gapGrammar : Grammar :=
  ((((({} : Grammar).setTerminal "T" "t").declare "gap").addExpansion
    "top" ["mid", "mid"]).addExpansion "top" ["T"]).addExpansion "mid" ["gap"]

/-- The same rules in another order. -/
def gapGrammarReordered : Grammar :=
  ((((({} : Grammar).addExpansion "mid" ["gap"]).addExpansion
    "top" ["T"]).addExpansion "top" ["mid", "mid"]).declare "gap").setTerminal
    "T" "t"

theorem reordered_gapGrammar : Reordered gapGrammar gapGrammarReordered where
  terminals _ := Iff.rfl
  symbols name := by
    show name ∈ ["gap", "top", "mid"] ↔ name ∈ ["mid", "top", "gap"]
    simp only [List.mem_cons, List.not_mem_nil, or_false]
    tauto
  expansions {name s s'} hs hs' expansion := by
    have hkey : name ∈ gapGrammar.symbols.keys := by
      rw [← Table.isSome_find?_iff, hs]
      rfl
    change name ∈ ["gap", "top", "mid"] at hkey
    have hlist := congrArg (Option.map Symbol.expansions) hs
    have hlist' := congrArg (Option.map Symbol.expansions) hs'
    simp only [List.mem_cons, List.not_mem_nil, or_false] at hkey
    rcases hkey with rfl | rfl | rfl
    · have h : [] = s.expansions := Option.some.inj hlist
      have h' : [] = s'.expansions := Option.some.inj hlist'
      rw [← h, ← h']
    · have h : [["mid", "mid"], ["T"]] = s.expansions := Option.some.inj hlist
      have h' : [["T"], ["mid", "mid"]] = s'.expansions := Option.some.inj hlist'
      rw [← h, ← h']
      simp only [List.mem_cons, List.not_mem_nil, or_false]
      exact or_comm
    · have h : [["gap"]] = s.expansions := Option.some.inj hlist
      have h' : [["gap"]] = s'.expansions := Option.some.inj hlist'
      rw [← h, ← h']

/-- `gapGrammar` analyzed for FIRST alone. -/
def gapAnalyzed : Grammar :=
  { gapGrammar with symbols := (gapGrammar.analysis .firstOnly).symbols }

/-- `gapGrammarReordered` analyzed for FOLLOW as well. -/
def gapAnalyzedReordered : Grammar :=
  { gapGrammarReordered with
    symbols := (gapGrammarReordered.analysis .follow).symbols }

theorem built_gapGrammar : Built gapGrammar :=
  ((((Built.empty.setTerminal _ _).declare _).addExpansion _ _).addExpansion
    _ _).addExpansion _ _

theorem built_gapGrammarReordered : Built gapGrammarReordered :=
  ((((Built.empty.addExpansion _ _).addExpansion _ _).addExpansion
    _ _).declare _).setTerminal _ _

theorem analyze_gapGrammar : gapGrammar.analyze .firstOnly = .ok gapAnalyzed :=
  rfl

theorem analyze_gapGrammarReordered :
    gapGrammarReordered.analyze .follow = .ok gapAnalyzedReordered := rfl

theorem nullable_iff_derives_nil_gap :
    Built gapGrammar ∧ gapGrammar.analyze .firstOnly = .ok gapAnalyzed ∧
      gapGrammar.symbols.position? "top" = some 1 ∧
      (∃ s, gapAnalyzed.symbols.find? "top" = some s ∧ (s.nullable = true ↔
        gapGrammar.completed.Derives [.nonterminal 1] [])) ∧
      (Built gapGrammarReordered ∧ Reordered gapGrammar gapGrammarReordered ∧
        gapGrammarReordered.analyze .follow = .ok gapAnalyzedReordered ∧
        (gapAnalyzed.symbols.find? "top").map Symbol.nullable =
          (gapAnalyzedReordered.symbols.find? "top").map Symbol.nullable) :=
  have hboth := nullable_iff_derives_nil built_gapGrammar analyze_gapGrammar
  ⟨built_gapGrammar, analyze_gapGrammar, rfl, hboth.1 "top" 1 rfl,
    built_gapGrammarReordered, reordered_gapGrammar, analyze_gapGrammarReordered,
    hboth.2 _ _ _ built_gapGrammarReordered reordered_gapGrammar
      analyze_gapGrammarReordered "top"⟩

end Grammar

end Descent
