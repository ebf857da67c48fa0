import Descent.Proofs.Analysis.Chains
import Descent.Proofs.Analysis.Nullability
import Descent.Proofs.Analysis.Reanalysis
import Descent.Proofs.Parser.Build

/-!
# Where the two modes agree

With FOLLOW to compute, a terminal behind nullable symbols counts for FIRST; without,
it does not. That is the only difference, so FIRST can only be larger with FOLLOW
(`facts_firstOnly_le`). Where no expansion has such a terminal, the sets without FOLLOW
are closed for the other mode as well (`closed_follow`), and since either table is the
least one that is closed, they agree.

A parser is made from nullability, FIRST and the expansions. What an analysis has left
in the FOLLOW sets does not get into it (`build_withoutFollow`), so grammars that agree
on FIRST have the same parsers.
-/

namespace Descent

/-! ## Grammars without FOLLOW sets -/

/-- The symbol with an empty FOLLOW set. -/
def Symbol.withoutFollow (s : Symbol) : Symbol := { s with follow := ∅ }

namespace Grammar

open Analysis FirstFacts

/-- The grammar with empty FOLLOW sets. -/
def withoutFollow (g : Grammar) : Grammar :=
  { g with symbols := g.symbols.map Symbol.withoutFollow }

variable (g : Grammar) (name : String) (settings : Settings)

theorem resolve_withoutFollow : g.withoutFollow.resolve = g.resolve :=
  resolve_of_keys rfl Table.keys_map

theorem predicting_withoutFollow :
    g.withoutFollow.predicting name = g.predicting name := by
  simp only [predicting, resolve_withoutFollow]
  simp only [withoutFollow, Table.at?_map]
  cases g.resolve name with
  | none => rfl
  | some token =>
      cases token with
      | terminal id => rfl
      | nonterminal n =>
          dsimp only
          cases g.symbols.at? n <;> rfl

theorem steps_withoutFollow (index slot : Nat) (expansion : Expansion) :
    g.withoutFollow.steps index slot expansion = g.steps index slot expansion := by
  induction expansion generalizing index slot with
  | nil => rfl
  | cons name rest ih =>
      simp only [steps, ih]
      simp only [withoutFollow, Table.find?_map]
      cases g.symbols.find? name <;> rfl

theorem branches_withoutFollow (claims : Prediction.Claims)
    (es : List (Expansion × Nat)) :
    g.withoutFollow.branches name claims es = g.branches name claims es := by
  induction es generalizing claims with
  | nil => rfl
  | cons e es ih =>
      obtain ⟨expansion, index⟩ := e
      cases expansion with
      | nil => exact ih claims
      | cons leading names =>
          simp only [branches, predicting_withoutFollow, steps_withoutFollow, ih]

theorem dispatch_withoutFollow (s : Symbol) :
    g.withoutFollow.dispatch name s.withoutFollow = g.dispatch name s :=
  g.branches_withoutFollow name [] s.expansions.zipIdx

theorem routine_withoutFollow (s : Symbol) :
    g.withoutFollow.routine settings name s.withoutFollow =
      g.routine settings name s := by
  rw [routine, dispatch_withoutFollow, routine]
  rfl

theorem routines_withoutFollow :
    g.withoutFollow.routines settings = g.routines settings := by
  rw [routines, withoutFollow, Table.map, List.map_map, routines]
  exact List.map_congr_left fun entry _ =>
    g.routine_withoutFollow entry.1 settings entry.2

theorem conflicts_withoutFollow : g.withoutFollow.conflicts = g.conflicts := by
  rw [conflicts, withoutFollow, Table.map, List.flatMap_map, conflicts]
  exact congrArg (List.flatMap · g.symbols.entries) (funext fun entry => by
    rw [← g.dispatch_withoutFollow]
    rfl)

theorem parserFrom_withoutFollow (start : Option String) :
    g.withoutFollow.parserFrom settings start = g.parserFrom settings start := by
  rw [parserFrom, routines_withoutFollow, conflicts_withoutFollow]
  rfl

theorem startSymbol_withoutFollow :
    g.withoutFollow.startSymbol settings = g.startSymbol settings := by
  have hkeys : g.withoutFollow.symbols.keys = g.symbols.keys := Table.keys_map
  have hcontains (name : String) :
      g.withoutFollow.symbols.contains name = g.symbols.contains name := by
    rw [Table.contains, hkeys, Table.contains]
  simp only [startSymbol, hkeys, hcontains]

theorem undefined?_withoutFollow :
    g.withoutFollow.undefined? g.withoutFollow.mentionedNames =
      g.undefined? g.mentionedNames := by
  have hnames : g.withoutFollow.mentionedNames = g.mentionedNames := by
    simp only [mentionedNames, withoutFollow, Table.values, Table.map, List.map_map,
      List.flatMap_map]
    rfl
  rw [hnames, undefined?, resolve_withoutFollow, undefined?]

/-- A parser is built as if FOLLOW had not been computed. -/
theorem build_withoutFollow (policy : ConflictPolicy) :
    Parser.build g.withoutFollow settings policy = Parser.build g settings policy := by
  simp only [Parser.build, startSymbol_withoutFollow, undefined?_withoutFollow,
    parserFrom_withoutFollow]

/-! ## Hidden terminals -/

/-- An expansion has a terminal behind one or more names of nullable symbols and nothing
else. -/
def HidesTerminal (g : Grammar) (expansion : Expansion) : Prop :=
  ∃ i < expansion.length, 0 < i ∧ expansion[i]?.any g.header.isTerminal = true ∧
    ∀ name ∈ expansion.take i, (g.symbols.find? name).any Symbol.nullable = true

instance (g : Grammar) (expansion : Expansion) : Decidable (g.HidesTerminal expansion) :=
  inferInstanceAs (Decidable (∃ i < expansion.length, 0 < i ∧
    expansion[i]?.any g.header.isTerminal = true ∧
    ∀ name ∈ expansion.take i, (g.symbols.find? name).any Symbol.nullable = true))

/-- No expansion of the grammar hides a terminal. -/
def HidesNothing (g : Grammar) : Prop :=
  ∀ s ∈ g.symbols.values, ∀ expansion ∈ s.expansions, ¬ g.HidesTerminal expansion

instance (g : Grammar) : Decidable g.HidesNothing :=
  inferInstanceAs (Decidable (∀ s ∈ g.symbols.values, ∀ expansion ∈ s.expansions,
    ¬ g.HidesTerminal expansion))

variable {g} {name} {f : FirstFacts}

theorem hidesTerminal_append {front rest : Expansion} (hne : front ≠ [])
    (hterminal : g.header.isTerminal name = true)
    (hnull : ∀ other ∈ front, (g.symbols.find? other).any Symbol.nullable = true) :
    g.HidesTerminal (front ++ name :: rest) := by
  refine ⟨front.length, ?_, List.length_pos_iff.mpr hne, ?_, ?_⟩
  · rw [List.length_append, List.length_cons]
    omega
  · rw [List.getElem?_append_right (le_refl _), Nat.sub_self]
    exact hterminal
  · rwa [List.take_left]

theorem any_nullable_of_resolve {n : Nat} (h : g.resolve name = some (.nonterminal n))
    (hnull : nullableAt g.symbols n = true) :
    (g.symbols.find? name).any Symbol.nullable = true := by
  obtain ⟨-, hposition⟩ := resolve_eq_some_nonterminal_iff.mp h
  obtain ⟨s, hfind, hat⟩ := find?_of_position? hposition
  rw [nullableAt, hat] at hnull
  rwa [hfind]

/-- A terminal in a right side with nullable symbols and nothing else in front of it is
the first token, or the expansion hides it. -/
theorem eq_nil_of_hidesNothing (hvalid : g.fault? = none) (hhides : g.HidesNothing)
    {n t : Nat} {before after : List Token}
    (mem : before ++ .terminal t :: after ∈ g.rightSides n)
    (hv : (factsOf g.symbols).Vanishes before) : before = [] := by
  obtain ⟨s, hat, expansion, hmem, hright⟩ := mem_rightSides.mp mem
  obtain ⟨front, back, rfl, rfl, hback⟩ := List.filterMap_eq_append_iff.mp hright
  obtain ⟨gap, name, rest, rfl, hgap, hname, -⟩ := List.filterMap_eq_cons_iff.mp hback
  have hall (other : String) (hother : other ∈ front ++ (gap ++ name :: rest)) :
      ∃ token, g.resolve other = some token :=
    exists_resolve_of_valid hvalid hat hmem hother
  -- Every name stands for something, so none was passed over in front of the terminal.
  obtain rfl : gap = [] := by
    refine List.eq_nil_iff_forall_not_mem.mpr fun other hother => ?_
    obtain ⟨token, htoken⟩ := hall other
      (List.mem_append_right front (List.mem_append_left _ hother))
    rw [hgap other hother] at htoken
    cases htoken
  have hterminal : g.header.isTerminal name = true := by
    obtain ⟨value, hvalue⟩ := Table.position?_eq_some_iff.mp
      (resolve_eq_some_terminal_iff.mp hname)
    exact Table.contains_iff.mpr (List.mem_map.mpr ⟨_, List.mem_of_getElem? hvalue, rfl⟩)
  have hnull (other : String) (hother : other ∈ front) :
      (g.symbols.find? other).any Symbol.nullable = true := by
    obtain ⟨token, htoken⟩ := hall other (List.mem_append_left _ hother)
    obtain ⟨k, rfl, hk⟩ := vanishes_iff.mp hv token
      (List.mem_filterMap.mpr ⟨other, hother, htoken⟩)
    exact any_nullable_of_resolve htoken hk
  refine Classical.byContradiction fun hne => hhides s (mem_values_of_symbolAt hat) _ hmem
    (hidesTerminal_append ?_ hterminal hnull)
  rintro rfl
  exact hne rfl

/-- Either way of looking at a sequence, it begins with the same terminals, except for
one that has nullable symbols and nothing else in front of it. -/
theorem begins_firstOnly_or {tokens : List Token} {t : Nat}
    (h : f.Begins .follow tokens t) :
    f.Begins .firstOnly tokens t ∨ ∃ before after,
      tokens = before ++ .terminal t :: after ∧ f.Vanishes before := by
  induction tokens with
  | nil => exact h.elim
  | cons token rest ih =>
      cases token with
      | terminal id =>
          obtain ⟨-, rfl⟩ := h
          exact Or.inr ⟨[], rest, rfl, trivial⟩
      | nonterminal n =>
          rcases h with hfirst | ⟨hnull, hrest⟩
          · exact Or.inl (Or.inl hfirst)
          · rcases ih hrest with hbegins | ⟨before, after, rfl, hv⟩
            · exact Or.inl (Or.inr ⟨hnull, hbegins⟩)
            · exact Or.inr ⟨.nonterminal n :: before, after, rfl, hnull, hv⟩

/-- Where no terminal is hidden, it does not matter whether hidden ones count. -/
theorem closed_follow (hvalid : g.fault? = none) (hhides : g.HidesNothing)
    (hc : (factsOf g.symbols).Closed g .firstOnly) :
    (factsOf g.symbols).Closed g .follow where
  seeded mem := hc.seeded mem
  first mem h := by
    rcases begins_firstOnly_or h with hbegins | ⟨before, after, rfl, hv⟩
    · exact hc.first mem hbegins
    · obtain rfl := eq_nil_of_hidesNothing hvalid hhides mem hv
      exact hc.seeded mem
  nullable mem h := hc.nullable mem h

/-! ## The two analyses of a grammar -/

theorem outline_withoutFollow : outline g.withoutFollow.symbols = outline g.symbols := by
  rw [outline, withoutFollow, Table.map, List.map_map, outline]
  rfl

theorem factsOf_withoutFollow : factsOf g.withoutFollow.symbols = factsOf g.symbols := by
  have hnull (n : Nat) : nullableAt g.withoutFollow.symbols n = nullableAt g.symbols n := by
    rw [nullableAt, withoutFollow, symbolAt?_map, Option.any_map, nullableAt]
    rfl
  have hfirst (n : Nat) : firstAt g.withoutFollow.symbols n = firstAt g.symbols n := by
    rw [firstAt, withoutFollow, symbolAt?_map, Option.map_map, firstAt]
    rfl
  rw [factsOf]
  simp only [hnull, hfirst]
  rfl

theorem followAt_withoutFollow (n : Nat) : followAt g.withoutFollow.symbols n = ∅ := by
  rw [followAt, withoutFollow, symbolAt?_map]
  cases symbolAt? g.symbols n <;> rfl

section Analyses

variable {source : String} {plain full : Grammar}
  (hparse : Grammar.parse source = .ok g) (hplain : g.analyze .firstOnly = .ok plain)
  (hfull : g.analyze .follow = .ok full)

include hparse hplain hfull

theorem nullableAt_firstOnly_iff {n : Nat} :
    nullableAt plain.symbols n = true ↔ nullableAt full.symbols n = true :=
  (nullableAt_iff (fresh_of_parse hparse) hplain).trans
    (nullableAt_iff (fresh_of_parse hparse) hfull).symm

theorem facts_firstOnly_le : factsOf plain.symbols ≤ factsOf full.symbols :=
  facts_le_of_closed hparse hplain
    ((closed_of_analyze hfull).inMode.congr (rightSides_of_analyze hplain))
    fun _ => (nullableAt_firstOnly_iff hparse hplain hfull).mp

theorem facts_firstOnly_eq (hhides : plain.HidesNothing) :
    factsOf plain.symbols = factsOf full.symbols := by
  have hsame : full.rightSides = plain.rightSides :=
    (rightSides_of_analyze hfull).trans (rightSides_of_analyze hplain).symm
  have hclosed : (factsOf plain.symbols).Closed plain .follow :=
    closed_follow (fault?_of_analyze hplain) hhides (closed_of_analyze_self hplain)
  refine le_antisymm (facts_firstOnly_le hparse hplain hfull) ?_
  exact facts_le_of_closed hparse hfull (hclosed.congr hsame)
    fun _ => (nullableAt_firstOnly_iff hparse hplain hfull).mpr

/-- Where no terminal is hidden, the analyses differ in nothing but FOLLOW. -/
theorem eq_withoutFollow (hhides : plain.HidesNothing) : plain = full.withoutFollow := by
  have hout : outline full.withoutFollow.symbols = outline g.symbols := by
    rw [outline_withoutFollow, symbols_of_analyze hfull, outline_analysis]
  have hsymbols : plain.symbols = full.withoutFollow.symbols := by
    refine eq_of_facts ?_ (expansions_ne_nil_of_outline hout (expanded_of_parse hparse))
      ?_ (funext fun n => ?_)
    · rw [hout, symbols_of_analyze hplain, outline_analysis]
    · rw [facts_firstOnly_eq hparse hplain hfull hhides, factsOf_withoutFollow]
    · rw [followAt_withoutFollow, symbols_of_analyze hplain, followAt_analysis_firstOnly,
        (fresh_of_parse hparse).followAt]
  obtain ⟨-, rfl⟩ := analyze_eq_ok hfull
  obtain ⟨-, rfl⟩ := analyze_eq_ok hplain
  exact congrArg (fun symbols => { g with symbols := symbols }) hsymbols

theorem first_firstOnly_subset {s : Symbol} (hfind : plain.symbols.find? name = some s) :
    ∃ s', full.symbols.find? name = some s' ∧ s'.nullable = s.nullable ∧
      ∀ t ∈ s.first, t ∈ s'.first := by
  obtain ⟨n, hpos, hat⟩ := position?_of_find? hfind
  have hpos' : full.symbols.position? name = some n := by
    rwa [Table.position?, keys_of_analyze hfull, ← keys_of_analyze hplain]
  obtain ⟨s', hfind', hat'⟩ := find?_of_position? hpos'
  refine ⟨s', hfind', ?_, fun t ht => ?_⟩
  · have hnull : nullableAt plain.symbols n = true ↔ nullableAt full.symbols n = true :=
      nullableAt_firstOnly_iff hparse hplain hfull
    rw [nullableAt, nullableAt, hat, hat'] at hnull
    exact Bool.eq_iff_iff.mpr hnull.symm
  · rw [← firstAt_of_symbolAt hat] at ht
    rw [← firstAt_of_symbolAt hat']
    exact (facts_firstOnly_le hparse hplain hfull).first ht

end Analyses

/-- Every FIRST set computed without FOLLOW is contained in the one computed with it, and
the same symbols are nullable. Where no expansion hides a terminal behind nullable
symbols, the FIRST sets are equal, and so is whatever becomes of building a parser. -/
theorem firstOnly_agrees_follow {source : String} (hparse : Grammar.parse source = .ok g)
    (hvalid : g.fault? = none) :
    ∃ plain full, g.analyze .firstOnly = .ok plain ∧ g.analyze .follow = .ok full ∧
      (∀ name s, plain.symbols.find? name = some s → ∃ s',
        full.symbols.find? name = some s' ∧ s'.nullable = s.nullable ∧
          ∀ t ∈ s.first, t ∈ s'.first) ∧
      (plain.HidesNothing →
        (∀ name, (plain.symbols.find? name).map Symbol.first =
          (full.symbols.find? name).map Symbol.first) ∧
        ∀ settings policy,
          Parser.build plain settings policy = Parser.build full settings policy) := by
  obtain ⟨plain, hplain⟩ : ∃ plain, g.analyze .firstOnly = .ok plain :=
    ⟨_, analyze_of_valid hvalid⟩
  obtain ⟨full, hfull⟩ : ∃ full, g.analyze .follow = .ok full :=
    ⟨_, analyze_of_valid hvalid⟩
  refine ⟨plain, full, hplain, hfull,
    fun _ _ => first_firstOnly_subset hparse hplain hfull, fun hhides => ?_⟩
  have heq := eq_withoutFollow hparse hplain hfull hhides
  constructor
  · intro name
    rw [heq, withoutFollow, Table.find?_map, Option.map_map]
    rfl
  · intro settings policy
    rw [heq, build_withoutFollow]

/-- A source where only symbols stand behind the nullable `e`. -/
def openSource : String :=
  "A = a\nB = b\n%%\ns := e t\ns := v A\ne :=\nt := e\nt := A s\nv := B e\n%%"

/-- The grammar of `openSource`. -/
def openGrammar : Grammar where
  header := .ofItems [.terminal "A" "a", .terminal "B" "b"]
  symbols := Symbol.tableOfRules [⟨"s", ["e", "t"]⟩, ⟨"s", ["v", "A"]⟩, ⟨"e", []⟩,
    ⟨"t", ["e"]⟩, ⟨"t", ["A", "s"]⟩, ⟨"v", ["B", "e"]⟩]

/-- The same grammar with its FIRST sets. -/
def openAnalyzed : Grammar :=
  { openGrammar with symbols := (openGrammar.analysis .firstOnly).symbols }

set_option maxRecDepth 4000 in
theorem firstOnly_agrees_follow_open :
    Grammar.parse openSource = .ok openGrammar ∧ openGrammar.fault? = none ∧
      openGrammar.analyze .firstOnly = .ok openAnalyzed ∧ openAnalyzed.HidesNothing ∧
      ∃ full, openGrammar.analyze .follow = .ok full ∧
        (∃ s s', openAnalyzed.symbols.find? "s" = some s ∧
          full.symbols.find? "s" = some s' ∧ s.nullable = true ∧ s'.first = s.first) ∧
        Parser.build openAnalyzed (.ofHeader openGrammar.header) .deny =
          Parser.build full (.ofHeader openGrammar.header) .deny := by
  have hparse : Grammar.parse openSource = .ok openGrammar := by rfl
  have hvalid : openGrammar.fault? = none := by decide
  obtain ⟨plain, full, hplain, hfull, hsub, hrest⟩ := firstOnly_agrees_follow hparse hvalid
  have hanalyze : openGrammar.analyze .firstOnly = .ok openAnalyzed := by rfl
  obtain rfl : openAnalyzed = plain := Except.ok.inj (hanalyze.symm.trans hplain)
  have hhides : openAnalyzed.HidesNothing := by decide
  obtain ⟨s, hfind, hnull⟩ : ∃ s, openAnalyzed.symbols.find? "s" = some s ∧
      s.nullable = true := ⟨_, rfl, rfl⟩
  obtain ⟨s', hfind', -, -⟩ := hsub "s" s hfind
  have hfirst := (hrest hhides).1 "s"
  rw [hfind, hfind', Option.map_some, Option.map_some, Option.some.injEq] at hfirst
  exact ⟨hparse, hvalid, hanalyze, hhides, full, hfull,
    ⟨s, s', hfind, hfind', hnull, hfirst.symm⟩, (hrest hhides).2 _ _⟩

set_option maxRecDepth 4000 in
/-- Where a terminal is hidden, its set is larger with FOLLOW. -/
example : ((Grammar.parse "X = x\n%%\na := b X\nb :=\n%%").toOption.map fun g =>
    [Mode.firstOnly, .follow].map fun mode =>
      ((g.analysis mode).symbols.find? "a").map (·.first.ids)) =
    some [some [], some [0]] := by
  rfl

end Grammar

end Descent
