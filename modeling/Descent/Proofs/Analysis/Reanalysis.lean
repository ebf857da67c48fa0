import Descent.Proofs.Analysis.Exact
import Descent.Proofs.Analysis.SameTable
import Descent.Proofs.Grammar.Growth

/-!
# Analyzing a grown grammar again

An analysis starts from what earlier ones have left behind, possibly in another
mode and while the grammar was smaller. This makes no difference: all that a
table says along the way holds of whatever is closed in the grammar as it is in
the end (`founded_after`). A closed fact of a grown grammar is closed in the
smaller one, whose analysis stays below it, so every change keeps this.

Below all closed facts there is nothing for the last analysis to inherit. It
finds the least closed facts, as it does when it starts from fresh symbols, and
leaves the very same table (`analysis_eq_of_founded`).

The mode matters in one respect. Without FOLLOW to compute, a FIRST set holds
less, so no analysis with FOLLOW may have gone before.
-/

namespace Descent.Grammar

open Analysis FirstFacts

variable {g g' last : Grammar} {mode mode' : Mode} {f : FirstFacts}
  {follow : Nat → Nat → Prop}

/-! ## Closed facts of a grown grammar -/

section Growth

variable (hgrows : Grows g last) (hvalid : g.fault? = none)
  (hlast : last.fault? = none)

include hgrows hvalid hlast

theorem Grows.closed (hc : f.Closed last mode) : f.Closed g mode where
  seeded mem := hc.seeded (hgrows.rightSides_subset hvalid hlast mem)
  first mem := hc.first (hgrows.rightSides_subset hvalid hlast mem)
  nullable mem := hc.nullable (hgrows.rightSides_subset hvalid hlast mem)

theorem Grows.followClosed (hc : FollowClosed last f follow) :
    FollowClosed g f follow :=
  fun owner right mem =>
    hc owner right (hgrows.rightSides_subset hvalid hlast mem)

end Growth

/-! ## Tables that say nothing of their own -/

/-- What a table says holds of all facts that are closed in a grammar; of FOLLOW
facts only where they count. -/
structure Founded (last : Grammar) (mode : Mode) (symbols : SymbolTable) :
    Prop where
  facts {f : FirstFacts} (hc : f.Closed last mode) : factsOf symbols ≤ f
  follow {f : FirstFacts} (follow : Nat → Nat → Prop)
    (hc : f.Closed last mode)
    (hfollow : mode = .follow → FollowClosed last f follow) {n t : Nat}
    (h : t ∈ followAt symbols n) : follow n t

theorem Fresh.founded (hfresh : g.Fresh) (hexp : g.Expanded)
    (hgrows : Grows g last) : Founded last mode g.symbols where
  facts hc := hfresh.factsOf_le_of_expanded hexp fun _ _ hat hnil =>
    hc.nullable (hgrows.nil_mem_rightSides hat hnil) trivial
  follow _ _ _ n t ht := by
    rw [hfresh.followAt] at ht
    exact absurd ht TerminalSet.not_mem_empty

theorem expansions_ne_nil_of_outline {symbols symbols' : SymbolTable}
    (hout : outline symbols' = outline symbols)
    (h : ∀ s ∈ symbols.values, s.expansions ≠ []) :
    ∀ s ∈ symbols'.values, s.expansions ≠ [] := by
  intro s hs
  obtain ⟨n, hat⟩ := exists_symbolAt_of_mem_values hs
  obtain ⟨s', hat', heq⟩ := expansions_of_outline hout.symm hat
  rw [← heq]
  exact h s' (mem_values_of_symbolAt hat')

/-! ## One more expansion -/

theorem symbolAt_addExpansion {name : String} {expansion : Expansion} {n : Nat}
    {s : Symbol}
    (hat : symbolAt? (g.addExpansion name expansion).symbols n = some s) :
    symbolAt? g.symbols n = some s ∨
      ∃ old, (symbolAt? g.symbols n = some old ∨ old = {}) ∧
        s = old.addExpansion expansion := by
  obtain ⟨⟨key, s⟩, hentry, rfl⟩ := Option.map_eq_some_iff.mp hat
  rcases Table.at?_upsert_cases hentry with ⟨old, hold, hs⟩ | ⟨-, hs⟩
  · have hat' : symbolAt? g.symbols n = some old :=
      Option.map_eq_some_iff.mpr ⟨_, hold, rfl⟩
    split at hs
    · exact Or.inr ⟨old, Or.inl hat', hs⟩
    · exact Or.inl (hs ▸ hat')
  · exact Or.inr ⟨{}, Or.inr rfl, hs⟩

/-- What an old symbol kept and a new one starts with was there before. -/
theorem mem_of_mem_addExpansion {read : Symbol → TerminalSet}
    (hnew : read {} = ∅)
    (hkept : ∀ s expansion, read (s.addExpansion expansion) = read s)
    {name : String} {expansion : Expansion} {n t : Nat}
    (h : t ∈ ((symbolAt? (g.addExpansion name expansion).symbols n).map
      read).getD ∅) :
    t ∈ ((symbolAt? g.symbols n).map read).getD ∅ := by
  cases hat : symbolAt? (g.addExpansion name expansion).symbols n with
  | none =>
      rw [hat] at h
      exact absurd h TerminalSet.not_mem_empty
  | some s =>
      rw [hat, Option.map_some, Option.getD_some] at h
      rcases symbolAt_addExpansion hat with hold | ⟨old, hold | rfl, rfl⟩
      · rw [hold]
        exact h
      · rw [hkept] at h
        rw [hold]
        exact h
      · rw [hkept, hnew] at h
        exact absurd h TerminalSet.not_mem_empty

theorem nullable_addExpansion {s : Symbol} {expansion : Expansion}
    (h : (s.addExpansion expansion).nullable = true) :
    s.marked = true ∨ [] ∈ (s.addExpansion expansion).expansions := by
  rw [nullable_eq_marked (s.expansions_addExpansion_ne_nil expansion)] at h
  refine ((Bool.or_eq_true ..).mp h).imp id fun hempty => ?_
  exact List.mem_append_right _
    (List.mem_singleton.mpr (List.isEmpty_iff.mp hempty).symm)

/-- A symbol that is nullable after one more expansion was so before, or has an
empty expansion. -/
theorem nullableAt_addExpansion {name : String} {expansion : Expansion} {n : Nat}
    (h : nullableAt (g.addExpansion name expansion).symbols n = true) :
    nullableAt g.symbols n = true ∨
      ∃ s, symbolAt? (g.addExpansion name expansion).symbols n = some s ∧
        [] ∈ s.expansions := by
  cases hat : symbolAt? (g.addExpansion name expansion).symbols n with
  | none =>
      rw [nullableAt, hat] at h
      cases h
  | some s =>
      rw [nullableAt, hat, Option.any_some] at h
      rcases symbolAt_addExpansion hat with hold | ⟨old, hold, rfl⟩
      · rw [nullableAt, hold, Option.any_some]
        exact Or.inl h
      · rcases nullable_addExpansion h with hmarked | hnil
        · rcases hold with hold | rfl
          · rw [nullableAt, hold, Option.any_some, Symbol.nullable, hmarked]
            exact Or.inl (Bool.or_true _)
          · cases hmarked
        · exact Or.inr ⟨_, rfl, hnil⟩

theorem Founded.addExpansion {name : String} {expansion : Expansion}
    (h : Founded last mode g.symbols)
    (hgrows : Grows (g.addExpansion name expansion) last) :
    Founded last mode (g.addExpansion name expansion).symbols where
  facts hc := by
    constructor
    · intro n hn
      rcases nullableAt_addExpansion hn with hold | ⟨s, hat, hnil⟩
      · exact (h.facts hc).nullable hold
      · exact hc.nullable (hgrows.nil_mem_rightSides hat hnil) trivial
    · intro n t ht
      exact (h.facts hc).first (mem_of_mem_addExpansion rfl (fun _ _ => rfl) ht)
  follow _ hc hfollow n t ht :=
    h.follow _ hc hfollow (mem_of_mem_addExpansion rfl (fun _ _ => rfl) ht)

/-! ## One more analysis -/

theorem Founded.analysis (h : Founded last mode g.symbols)
    (hgrows : Grows g last) (hvalid : g.fault? = none)
    (hlast : last.fault? = none) (hmode : mode = .follow ∨ mode' = .firstOnly) :
    Founded last mode (g.analysis mode').symbols where
  facts {f} hc := by
    have hc' : f.Closed g mode' := by
      have hc := hgrows.closed hvalid hlast hc
      rcases hmode with rfl | rfl
      · exact hc.inMode
      · cases mode with
        | firstOnly => exact hc
        | follow => exact hc.inMode
    exact analysis_least hc' (h.facts hc)
  follow {f} follow hc hfollow n t ht := by
    cases mode' with
    | firstOnly =>
        rw [followAt_analysis_firstOnly] at ht
        exact h.follow follow hc hfollow ht
    | follow =>
        obtain rfl := hmode.resolve_right (by rintro ⟨⟩)
        have hle : factsOf (g.analysis .follow).symbols ≤ f :=
          analysis_least (hgrows.closed hvalid hlast hc) (h.facts hc)
        have hclosed := hgrows.followClosed hvalid hlast (hfollow rfl)
        refine follow_analysis_least (fun owner right mem => ?_)
          (fun n t ht => h.follow follow hc hfollow ht) n t ht
        exact (hclosed owner right mem).anti hle fun _ ht => ht

/-! ## A whole history -/

theorem Founded.apply {change : Change} (h : Founded last mode g.symbols)
    (hgrows : Grows (change.apply g) last) (hlast : last.fault? = none)
    (hmode : mode = .follow ∨ change ≠ .analyze .follow) :
    Founded last mode (change.apply g).symbols := by
  cases change with
  | setTerminal name value => exact ⟨h.facts, h.follow⟩
  | addExpansion name expansion => exact h.addExpansion hgrows
  | analyze mode' =>
      have hmode' : mode = .follow ∨ mode' = .firstOnly := by
        refine hmode.imp id fun hne => ?_
        cases mode' with
        | firstOnly => rfl
        | follow => exact absurd rfl hne
      rcases apply_analyze g mode' with ⟨hvalid, heq⟩ | heq
      · have hfounded := h.analysis ((grows_apply _).trans hgrows) hvalid hlast
          hmode'
        rw [heq]
        exact hfounded
      · rw [heq]
        exact h

/-- Whatever has happened to a grammar on the way to one without a fault, the
table says only what holds of all facts closed in the latter. -/
theorem founded_after {changes : List Change} (hafter : g.after changes = last)
    (hlast : last.fault? = none)
    (hmode : mode = .follow ∨ .analyze .follow ∉ changes)
    (h : Founded last mode g.symbols) : Founded last mode last.symbols := by
  induction changes generalizing g with
  | nil =>
      obtain rfl : g = last := hafter
      exact h
  | cons change changes ih =>
      have hrest : (change.apply g).after changes = last := hafter
      have hgrows : Grows (change.apply g) last := hrest ▸ grows_after
      refine ih hrest (hmode.imp id fun hnot hmem =>
        hnot (List.mem_cons_of_mem change hmem)) ?_
      exact h.apply hgrows hlast
        (hmode.imp id fun hnot heq => hnot (heq ▸ List.mem_cons_self))

theorem expanded_apply {change : Change} (h : g.Expanded) :
    (change.apply g).Expanded := by
  cases change with
  | setTerminal name value => exact h
  | addExpansion name expansion =>
      exact addExpansion_preserves
        (Symbol.expansions_addExpansion_ne_nil {} expansion)
        (fun s _ => s.expansions_addExpansion_ne_nil expansion) h
  | analyze mode =>
      rcases apply_analyze g mode with ⟨-, heq⟩ | heq
      · rw [heq]
        exact expansions_ne_nil_of_outline outline_analysis h
      · rw [heq]
        exact h

theorem expanded_after {changes : List Change} (h : g.Expanded) :
    (g.after changes).Expanded := by
  induction changes generalizing g with
  | nil => exact h
  | cons change changes ih => exact ih (expanded_apply h)

/-! ## The last analysis -/

theorem Founded.followAt_eq_empty {symbols : SymbolTable}
    (h : Founded last .firstOnly symbols) (n : Nat) : followAt symbols n = ∅ := by
  have hnone : ∀ t, t ∈ followAt symbols n → False := fun t =>
    h.follow (fun _ _ => False) (derived_closed last).inMode
      fun heq => by cases heq
  exact TerminalSet.ext fun t => iff_of_false (hnone t) TerminalSet.not_mem_empty

section Same

variable (hterminals : g'.header.terminals = g.header.terminals)
  (hout : outline g'.symbols = outline g.symbols)
  (h : Founded g mode g.symbols) (h' : Founded g mode g'.symbols)

include hterminals hout h h'

theorem factsOf_analysis_eq_of_founded :
    factsOf (g'.analysis mode).symbols = factsOf (g.analysis mode).symbols := by
  have hsides : g'.rightSides = g.rightSides := rightSides_congr hterminals hout
  have hclosed : (factsOf (g'.analysis mode).symbols).Closed g mode :=
    closed_analysis.congr hsides.symm
  exact FirstFacts.le_antisymm
    (analysis_least (closed_analysis.congr hsides) (h'.facts closed_analysis))
    (analysis_least hclosed (h.facts hclosed))

theorem followAt_analysis_eq_of_founded (n : Nat) :
    followAt (g'.analysis mode).symbols n = followAt (g.analysis mode).symbols n := by
  have hsides : g'.rightSides = g.rightSides := rightSides_congr hterminals hout
  have hfacts := factsOf_analysis_eq_of_founded hterminals hout h h'
  cases mode with
  | firstOnly =>
      rw [followAt_analysis_firstOnly, followAt_analysis_firstOnly,
        h.followAt_eq_empty, h'.followAt_eq_empty]
  | follow =>
      have hclosed : FollowClosed g' (factsOf (g'.analysis .follow).symbols)
          (followOfTable (g.analysis .follow).symbols) := by
        rw [hfacts]
        exact followClosed_analysis.congr hsides
      have hclosed' : FollowClosed g (factsOf (g.analysis .follow).symbols)
          (followOfTable (g'.analysis .follow).symbols) := by
        rw [← hfacts]
        exact followClosed_analysis.congr hsides.symm
      refine TerminalSet.ext fun t => ⟨?_, ?_⟩
      · exact follow_analysis_least hclosed (fun n t ht => h'.follow _
          closed_analysis (fun _ => followClosed_analysis) ht) n t
      · exact follow_analysis_least hclosed' (fun n t ht => h.follow _
          closed_analysis (fun _ => hclosed') ht) n t

/-- What a table says of its own accord is all that can tell two analyses of the
same rules apart. -/
theorem analysis_eq_of_founded (hexp : g.Expanded) :
    (g'.analysis mode).symbols = (g.analysis mode).symbols :=
  eq_of_facts (outline_analysis.trans (hout.trans outline_analysis.symm))
    (expansions_ne_nil_of_outline outline_analysis hexp)
    (factsOf_analysis_eq_of_founded hterminals hout h h')
    (funext (followAt_analysis_eq_of_founded hterminals hout h h'))

end Same

theorem fresh_and_expanded_of_start
    (hstart : g = {} ∨ ∃ source, Grammar.parse source = .ok g) :
    g.Fresh ∧ g.Expanded := by
  rcases hstart with rfl | ⟨source, hparse⟩
  · exact ⟨Built.empty.fresh, fun s hs => absurd hs List.not_mem_nil⟩
  · exact ⟨fresh_of_parse hparse, expanded_of_parse hparse⟩

/-- A grammar that was empty or freshly read, that has grown, and that has been
analyzed on the way, successfully or not, is analyzed as if it had been put
together all at once: with the same error, or with the same symbols, sets
included. If the last analysis is one without FOLLOW, then so must all earlier
ones have been. -/
theorem analyze_after_eq_fresh {fresh : Grammar} {changes : List Change}
    (hstart : g = {} ∨ ∃ source, Grammar.parse source = .ok g)
    (hmode : mode = .follow ∨ .analyze .follow ∉ changes)
    (hfresh : fresh.Fresh)
    (hterminals :
      fresh.header.terminals = (g.after changes).header.terminals)
    (hout : outline fresh.symbols = outline (g.after changes).symbols) :
    ((g.after changes).analyze mode).map Grammar.symbols =
      (fresh.analyze mode).map Grammar.symbols := by
  obtain ⟨hstartFresh, hstartExp⟩ := fresh_and_expanded_of_start hstart
  have hfault := fault?_congr hterminals hout
  cases hvalid : (g.after changes).fault? with
  | some fault =>
      rw [analyze, analyze, hfault, hvalid]
  | none =>
      have hexp : (g.after changes).Expanded := expanded_after hstartExp
      have hfounded : Founded (g.after changes) mode (g.after changes).symbols :=
        founded_after rfl hvalid hmode (hstartFresh.founded hstartExp grows_after)
      have hfounded' : Founded (g.after changes) mode fresh.symbols :=
        hfresh.founded (expansions_ne_nil_of_outline hout hexp)
          (grows_of_outline hterminals.symm hout.symm)
      rw [analyze_of_valid hvalid, analyze_of_valid (hfault.trans hvalid)]
      exact congrArg Except.ok
        (analysis_eq_of_founded hterminals hout hfounded hfounded' hexp).symm

/-- A history with an analysis that fails, one without FOLLOW and one with it,
between which a name is defined and symbols gain expansions. -/
def growingChanges : List Change :=
  [.addExpansion "list" ["item", "list"], .analyze .firstOnly,
    .addExpansion "item" ["X"], .setTerminal "X" "x", .analyze .follow,
    .addExpansion "list" [], .setTerminal "Y" "y", .analyze .firstOnly,
    .addExpansion "top" ["list", "Y"]]

/-- The grammar of the same rules, put together without an analysis. -/
def grownFresh : Grammar :=
  ((((((({} : Grammar).setTerminal "X" "x").setTerminal "Y" "y").addExpansion
    "list" ["item", "list"]).addExpansion "item" ["X"]).addExpansion
    "list" []).addExpansion "top" ["list", "Y"])

theorem fresh_grownFresh : grownFresh.Fresh :=
  ((((((Built.empty.setTerminal _ _).setTerminal _ _).addExpansion _ _).addExpansion
    _ _).addExpansion _ _).addExpansion _ _).fresh

theorem analyze_after_eq_fresh_grown :
    grownFresh.Fresh ∧
      grownFresh.header.terminals =
        (({} : Grammar).after growingChanges).header.terminals ∧
      outline grownFresh.symbols =
        outline (({} : Grammar).after growingChanges).symbols ∧
      (({} : Grammar).after growingChanges).fault? = none ∧
      ((({} : Grammar).after growingChanges).analyze .follow).map Grammar.symbols =
        (grownFresh.analyze .follow).map Grammar.symbols :=
  ⟨fresh_grownFresh, rfl, rfl, rfl,
    analyze_after_eq_fresh (Or.inl rfl) (Or.inl rfl) fresh_grownFresh rfl rfl⟩

end Descent.Grammar
