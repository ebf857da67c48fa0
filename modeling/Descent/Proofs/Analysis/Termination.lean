import Descent.Proofs.Analysis.Exact
import Descent.Proofs.Analysis.Index
import Descent.Report

/-!
# How long the loops of an analysis take

`Worklist.Ends` and `FollowRun.Ends` are the two loops without a budget. The budgets
never decide anything: with them a run is one of these (`Worklist.ends_run`,
`FollowRun.ends_run`).

Steps and waiting productions together never get fewer, so every production is looked at
once at least. The same sum plus the potential of the table never gets more, and on a
grammar that nothing has analyzed every set lies within the terminals of the header, so
the potential is at most

  Σ users · (terminals + 1)

over the symbols. For FOLLOW each pass but the last uses up a terminal that is missing in
the FOLLOW set of a symbol.
-/

namespace Descent

/-! ## Counting expansions -/

namespace Grammar

variable {g : Grammar}

/-- The number of expansions of all symbols. -/
def expansionCount (g : Grammar) : Nat :=
  (g.symbols.values.map fun s => s.expansions.length).sum

/-- The number of expansions that mention a name. -/
def mentionCount (g : Grammar) (name : String) : Nat :=
  (g.symbols.values.map fun s => s.expansions.countP fun expansion => name ∈ expansion).sum

/-- The number of steps for FIRST that suffices: each expansion once, and once more for
everything that a symbol which it mentions can learn. -/
def stepBound (g : Grammar) : Nat :=
  g.expansionCount +
    (g.symbols.keys.map fun name => g.mentionCount name * (g.header.terminals.size + 1)).sum

theorem length_productionList : g.productionList.length = g.expansionCount := by
  rw [productionList, List.length_flatMap, expansionCount]
  simp only [productionsOf, List.length_map, List.length_zipIdx]
  exact congrArg List.sum (map_zipIdx_fst g.symbols.values fun s => s.expansions.length)

theorem nodup_productionList : g.productionList.Nodup :=
  List.Nodup.of_map _ nodup_places

/-- In a grammar without faults the users of a symbol are the expansions with its name. -/
theorem length_users (hvalid : g.fault? = none) {name : String} {n : Nat}
    (hname : g.symbols.position? name = some n) :
    (g.productions.users n).length = g.mentionCount name := by
  obtain ⟨s, hat⟩ := Table.position?_eq_some_iff.mp hname
  have hterminal : name ∉ g.header.terminals.keys := fun h =>
    fault?_eq_none_iff.mp hvalid _ (List.mem_of_getElem? hat) (Or.inl h)
  have hmentions : ∀ expansion : Expansion,
      .nonterminal n ∈ expansion.filterMap g.resolve ↔ name ∈ expansion := by
    intro expansion
    rw [List.mem_filterMap]
    constructor
    · rintro ⟨other, hmem, hresolve⟩
      have hother := (resolve_eq_some_nonterminal_iff.mp hresolve).2
      exact position?_inj hother hname ▸ hmem
    · exact fun hmem => ⟨name, hmem, resolve_eq_some_nonterminal_iff.mpr ⟨hterminal, hname⟩⟩
  have hcount : ∀ owner (s : Symbol),
      (g.productionsOf owner s).countP (fun p => .nonterminal n ∈ p.right) =
        s.expansions.countP fun expansion => name ∈ expansion := by
    intro owner s
    simp only [productionsOf, List.countP_map, Function.comp_def, hmentions]
    have hmap := List.countP_map (p := fun expansion : Expansion => name ∈ expansion)
      (f := Prod.fst) (l := s.expansions.zipIdx)
    rw [List.zipIdx_map_fst] at hmap
    exact hmap.symm
  rw [productions, Productions.users_eq_filter (Table.lt_size_of_position? hname),
    ← List.countP_eq_length_filter, productionList, List.countP_flatMap, mentionCount]
  simp only [Function.comp_def, hcount]
  exact congrArg List.sum (map_zipIdx_fst g.symbols.values fun s =>
    s.expansions.countP fun expansion => name ∈ expansion)

/-- The terminals of the header. -/
def terminalSet (g : Grammar) : TerminalSet :=
  ⟨List.range g.header.terminals.size, List.pairwise_lt_range⟩

theorem size_terminalSet : g.terminalSet.size = g.header.terminals.size := List.length_range

theorem mem_terminalSet {t : Nat} : t ∈ g.terminalSet ↔ t < g.header.terminals.size :=
  List.mem_range

theorem mem_terminalSet_of_mem {n t : Nat} {right : List Token}
    (mem : right ∈ g.rightSides n) (ht : .terminal t ∈ right) : t ∈ g.terminalSet :=
  mem_terminalSet.mpr (terminal_lt_of_mem mem ht)

end Grammar

namespace Analysis

open FirstFacts Grammar

variable {g : Grammar} {mode : Mode}

/-! ## The loop for FIRST -/

/-- The loop without a budget: it goes on while something is pending. -/
inductive Worklist.Ends (mode : Mode) (ps : Productions) : Worklist → Worklist → Prop
  | done {w : Worklist} (h : w.step? mode ps = none) : Ends mode ps w w
  | step {w next last : Worklist} (h : w.step? mode ps = some next)
      (hrest : Ends mode ps next last) : Ends mode ps w last

theorem Worklist.ends_run {ps : Productions} {budget : Nat} :
    ∀ {w : Worklist}, (run mode ps budget w).pending.toList = [] →
      Ends mode ps w (run mode ps budget w) := by
  induction budget with
  | zero =>
      intro w hdrained
      exact .done (Option.map_eq_none_iff.mpr (Queue.pop?_eq_none_iff.mpr hdrained))
  | succ budget ih =>
      intro w hdrained
      rw [run] at hdrained ⊢
      split at hdrained
      · next next hnext => exact .step hnext (ih hdrained)
      · next hnext => exact .done hnext

theorem ends_firstSets :
    Worklist.Ends mode g.productions (firstStart g) (firstSets mode g.productions g.symbols) :=
  Worklist.ends_run pending_firstSets

/-- The counter of a run against the productions that wait, for sets that lie within a set
of terminals. -/
structure Counted (g : Grammar) (terminals : TerminalSet) (w : Worklist) : Prop where
  within : factsOf w.symbols ≤ factsWithin (· ∈ terminals)
  lower : g.expansionCount ≤ w.steps + w.pending.size
  upper : w.steps + w.pending.size + potential g terminals w.symbols ≤
    g.expansionCount + potential g terminals (firstStart g).symbols

theorem Running.next_counted {terminals : TerminalSet} {w next : Worklist} (h : Running g w)
    (hnext : w.step? mode g.productions = some next)
    (hclosed : (factsWithin (· ∈ terminals)).Closed g mode)
    (hcounted : Counted g terminals w) : Counted g terminals next := by
  have hwithin := h.next_facts_le hnext hclosed hcounted.within
  obtain ⟨p, rest, hpop, -, hsteps, hpending⟩ := Worklist.step?_eq_some hnext
  have hrest : rest.size ≤ next.pending.size := by
    rw [hpending]
    split
    · exact Queue.size_le_pushAll
    · exact Nat.le_refl _
  have hsize := Queue.size_of_pop? hpop
  have hmeasure := h.next_measure hnext hwithin
  have hlower := hcounted.lower
  have hupper := hcounted.upper
  exact ⟨hwithin, by omega, by omega⟩

theorem size_pending_start : (firstStart g).pending.size = g.expansionCount := by
  rw [Queue.size_eq_length, firstStart, Queue.toList_ofList_of_nodup nodup_productionList,
    length_productionList]

theorem counted_firstSets (hfresh : g.Fresh) :
    Counted g g.terminalSet (firstSets mode g.productions g.symbols) := by
  have hclosed : ∀ mode, (factsWithin (· ∈ g.terminalSet)).Closed g mode :=
    fun _ => factsWithin_closed fun mem _ ht => mem_terminalSet_of_mem mem ht
  refine firstSets_preserves
    (fun w next hrunning h hnext => hrunning.next_counted hnext (hclosed mode) h) ?_
  have hsteps : (firstStart g).steps = 0 := rfl
  have hsize := size_pending_start (g := g)
  exact ⟨facts_start_le (hclosed mode) (hfresh.factsOf_le fun _ _ _ _ => trivial),
    by omega, by omega⟩

/-- A sum over the positions of a list is a sum over the list. -/
theorem sum_range_eq {α : Type} {l : List α} {f : Nat → Nat} {value : α → Nat}
    (h : ∀ n a, l[n]? = some a → f n = value a) :
    ∑ n ∈ Finset.range l.length, f n = (l.map value).sum := by
  have hmap : (List.range l.length).map f = l.map value := by
    refine List.ext_getElem (by simp) ?_
    intro n hn hn'
    rw [List.length_map] at hn'
    simp only [List.getElem_map, List.getElem_range]
    exact h n _ (List.getElem?_eq_getElem hn')
  rw [← hmap]
  rfl

theorem potential_le_stepBound (hvalid : g.fault? = none) (symbols : SymbolTable) :
    g.expansionCount + potential g g.terminalSet symbols ≤ g.stepBound := by
  have hsum : ∑ n ∈ Finset.range g.symbols.keys.length,
      (g.productions.users n).length * (g.header.terminals.size + 1) =
        (g.symbols.keys.map fun name =>
          g.mentionCount name * (g.header.terminals.size + 1)).sum := by
    refine sum_range_eq fun n name hat => ?_
    rw [length_users hvalid (Table.position?_eq_some_iff.mpr ?_)]
    rw [Table.keys, List.getElem?_map] at hat
    obtain ⟨entry, hentry, rfl⟩ := Option.map_eq_some_iff.mp hat
    exact ⟨entry.2, hentry⟩
  rw [Table.length_keys] at hsum
  rw [stepBound, ← hsum]
  refine Nat.add_le_add_left (Finset.sum_le_sum fun n _ => Nat.mul_le_mul_left _ ?_) _
  rw [← size_terminalSet]
  exact slack_le _ _ _

theorem steps_firstSets (hfresh : g.Fresh) (hvalid : g.fault? = none) :
    g.expansionCount ≤ (firstSets mode g.productions g.symbols).steps ∧
      (firstSets mode g.productions g.symbols).steps ≤ g.stepBound := by
  have hcounted : Counted g g.terminalSet (firstSets mode g.productions g.symbols) :=
    counted_firstSets hfresh
  have hdrained : (firstSets mode g.productions g.symbols).pending.size = 0 := by
    rw [Queue.size_eq_length, pending_firstSets, List.length_nil]
  have hbound := potential_le_stepBound hvalid (firstStart g).symbols
  have hlower := hcounted.lower
  have hupper := hcounted.upper
  omega

/-! ## The loop for FOLLOW -/

/-- The loop without a budget: it makes passes until one changes nothing. -/
inductive FollowRun.Ends (ps : Productions) : FollowRun → FollowRun → Prop
  | last {r : FollowRun} (h : (followPass ps.all r.symbols).2 = false) :
      Ends ps r ⟨(followPass ps.all r.symbols).1, r.passes + 1⟩
  | more {r last : FollowRun} (h : (followPass ps.all r.symbols).2 = true)
      (hrest : Ends ps ⟨(followPass ps.all r.symbols).1, r.passes + 1⟩ last) : Ends ps r last

section FollowRun

variable {terminals : TerminalSet}
  (hin : ∀ {n : Nat} {right : List Token}, right ∈ g.rightSides n →
    ∀ u, .terminal u ∈ right → u ∈ terminals)

include hin

theorem FollowRun.ends_run {budget : Nat} :
    ∀ {r : FollowRun}, Bounded g terminals r.symbols → missing g terminals r.symbols < budget →
      Ends g.productions r (run g.productions budget r) := by
  induction budget with
  | zero =>
      intro r _ hlt
      exact absurd hlt (Nat.not_lt_zero _)
  | succ budget ih =>
      intro r hbounded hlt
      rw [run]
      split
      · next hflag =>
          have hdown := hbounded.missing_pass (hbounded.pass hin) hflag
          have hlt' : missing g terminals
              (followPass g.productions.all r.symbols).1 < budget := by omega
          exact .more hflag (ih (hbounded.pass hin) hlt')
      · next hflag => exact .last (Bool.not_eq_true _ ▸ hflag)

theorem FollowRun.Ends.passes {r last : FollowRun} (h : Ends g.productions r last)
    (hbounded : Bounded g terminals r.symbols) :
    r.passes + 1 ≤ last.passes ∧
      last.passes ≤ r.passes + missing g terminals r.symbols + 1 := by
  induction h with
  | last =>
      constructor
      · exact Nat.le_refl _
      · show _ + 1 ≤ _
        omega
  | more hflag _ ih =>
      have hdown := hbounded.missing_pass (hbounded.pass hin) hflag
      obtain ⟨hlower, hupper⟩ := ih (hbounded.pass hin)
      dsimp only at hlower hupper
      omega

end FollowRun

theorem bounded_firstSets (hfresh : g.Fresh) :
    Bounded g g.terminalSet (firstSets mode g.productions g.symbols).symbols where
  outline := outline_firstSets
  facts := (counted_firstSets hfresh).within
  follow {n t} h := by
    rw [followAt_firstSets, hfresh.followAt] at h
    exact absurd h TerminalSet.not_mem_empty

theorem ends_followSets {symbols : SymbolTable} (hout : outline symbols = outline g.symbols) :
    FollowRun.Ends g.productions { symbols := symbols } (followSets g.productions symbols) := by
  refine FollowRun.ends_run (fun mem _ ht => terminal_mem_universe mem ht)
    (bounded_start hout) ?_
  rw [followBudget, size_eq_of_outline hout]
  exact Nat.lt_succ_of_le missing_le

end Analysis

/-! ## What is reported -/

namespace Event

theorem stage_of_mem_ofSections {sections : Sections} {e : Event} (h : e ∈ ofSections sections) :
    e.stage = .parse := by
  simp only [ofSections, List.mem_append, List.mem_map, List.mem_singleton] at h
  rcases h with (⟨_, -, rfl⟩ | ⟨_, -, rfl⟩) | rfl <;> rfl

theorem stage_of_mem_ofExpansions {g : Grammar} {e : Event} (h : e ∈ ofExpansions g) :
    e.stage = .generation := by
  obtain ⟨note, hnote, hevent⟩ := List.mem_filterMap.mp h
  obtain ⟨entry, -, hnote⟩ := List.mem_flatMap.mp (List.takeWhile_subset _ hnote)
  obtain ⟨expansion, -, rfl⟩ := List.mem_map.mp hnote
  dsimp only at hevent
  split at hevent
  · injection hevent with hevent
    rw [← hevent]
    rfl
  · cases hevent

theorem stage_of_mem_ofBuild {g : Grammar} {settings : Settings} {policy : ConflictPolicy}
    {e : Event} (h : e ∈ ofBuild g settings policy) : e.stage = .generation := by
  unfold ofBuild at h
  split at h
  · cases h
  · split at h
    · rcases List.mem_append.mp h with h | h
      · exact stage_of_mem_ofExpansions h
      · obtain ⟨_, -, rfl⟩ := List.mem_map.mp h
        rfl
    · exact stage_of_mem_ofExpansions h

end Event

namespace Report

variable {source : String} {g : Grammar} {mode : Mode} {adjust : Settings → Settings}
  {policy : ConflictPolicy}

/-- What a run over a source reports of the analysis are the counters of the analysis. -/
theorem mem_events_ofSource_iff (hparse : Grammar.parse source = .ok g)
    (hvalid : g.fault? = none) {e : Event} (hstage : e.stage = .analysis) :
    e ∈ (ofSource (some mode) adjust policy source).events ↔
      e ∈ Event.ofAnalysis (g.analysis mode) := by
  obtain ⟨sections, hsplit, rfl⟩ := Grammar.parse_eq_ok hparse
  simp only [ofSource, hsplit, ofParsed, Grammar.analyze_of_valid hvalid, after, ofGrammar,
    List.mem_append]
  constructor
  · rintro (h | h | h)
    · rw [Event.stage_of_mem_ofSections h] at hstage
      cases hstage
    · exact h
    · rw [Event.stage_of_mem_ofBuild h] at hstage
      cases hstage
  · exact fun h => Or.inr (Or.inl h)

end Report

/-! ## The counters of a run -/

open Analysis in
/-- On a freshly read grammar without faults both loops end, and the counters that a run
reports lie between fixed bounds. -/
theorem counters_of_parse {source : String} {g : Grammar}
    (hparse : Grammar.parse source = .ok g) (hvalid : g.fault? = none) (mode : Mode)
    (adjust : Settings → Settings) (policy : ConflictPolicy) :
    ∃ w, Worklist.Ends mode g.productions (firstStart g) w ∧
      (∀ steps, .firstComplete steps ∈
        (Report.ofSource (some mode) adjust policy source).events ↔ steps = w.steps) ∧
      g.expansionCount ≤ w.steps ∧ w.steps ≤ g.stepBound ∧
      (mode = .follow → ∃ r,
        FollowRun.Ends g.productions { symbols := w.symbols } r ∧
        (∀ passes, .followComplete passes ∈
          (Report.ofSource (some mode) adjust policy source).events ↔ passes = r.passes) ∧
        1 ≤ r.passes ∧ r.passes ≤ g.symbols.size * g.header.terminals.size + 1) := by
  have hfresh := Grammar.fresh_of_parse hparse
  have hsteps : g.expansionCount ≤ (firstSets mode g.productions g.symbols).steps ∧
      (firstSets mode g.productions g.symbols).steps ≤ g.stepBound :=
    steps_firstSets hfresh hvalid
  refine ⟨firstSets mode g.productions g.symbols, ends_firstSets, ?_, hsteps.1, hsteps.2, ?_⟩
  · intro steps
    rw [Report.mem_events_ofSource_iff hparse hvalid rfl]
    cases mode <;> simp [Event.ofAnalysis, Grammar.analysis]
  · intro hmode
    subst hmode
    have hends : FollowRun.Ends g.productions
        { symbols := (firstSets .follow g.productions g.symbols).symbols }
        (followSets g.productions (firstSets .follow g.productions g.symbols).symbols) :=
      ends_followSets outline_firstSets
    refine ⟨_, hends, ?_, ?_⟩
    · intro passes
      rw [Report.mem_events_ofSource_iff hparse hvalid rfl]
      simp [Event.ofAnalysis, Grammar.analysis]
    · have hpasses := hends.passes (fun mem _ ht => Grammar.mem_terminalSet_of_mem mem ht)
        (bounded_firstSets hfresh)
      have hmissing : missing g g.terminalSet
          (firstSets .follow g.productions g.symbols).symbols ≤
            g.symbols.size * g.terminalSet.size := missing_le
      rw [Grammar.size_terminalSet] at hmissing
      dsimp only at hpasses
      omega

open Analysis Grammar in
/-- With three expansions, two of which mention `items`, and three terminals the loops take at
most eleven steps and seven passes. -/
theorem counters_of_parse_list :
    Grammar.parse listSource = .ok listGrammar ∧ listGrammar.fault? = none ∧
      ∃ steps passes, 3 ≤ steps ∧ steps ≤ 11 ∧ 1 ≤ passes ∧ passes ≤ 7 ∧
        .firstComplete steps ∈ (Report.ofSource (some .follow) id .warn listSource).events ∧
        .followComplete passes ∈ (Report.ofSource (some .follow) id .warn listSource).events := by
  obtain ⟨w, -, hfirst, hlower, hupper, hfollow⟩ :=
    counters_of_parse parse_listSource rfl .follow id .warn
  obtain ⟨r, -, hpasses, hone, hbound⟩ := hfollow rfl
  exact ⟨parse_listSource, rfl, w.steps, r.passes, hlower, hupper, hone, hbound,
    (hfirst _).mpr rfl, (hpasses _).mpr rfl⟩

end Descent
