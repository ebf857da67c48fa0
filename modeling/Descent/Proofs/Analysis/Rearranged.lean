import Descent.Proofs.Analysis.Orders
import Descent.Proofs.Analysis.Validation
import Descent.Proofs.Grammar.Fresh

/-!
# Symbols declared in another order

When the symbols of a grammar are declared in another order, every symbol gets
another position, and with it the queue, the passes and the order in which
everything is looked at change. None of this reaches what the analysis says of a
symbol by its name (`Rearranged.analyze`).

A table of the second order can be read through the renaming of the positions.
What it says is then closed in the first order, so the least closed facts of the
first order are among it, and the same the other way round.
-/

namespace Descent

/-- A token whose symbol has moved. -/
def Token.rename (ρ : Nat → Nat) : Token → Token
  | .terminal id => .terminal id
  | .nonterminal n => .nonterminal (ρ n)

namespace Analysis

/-! ## Facts under a renaming -/

namespace FirstFacts

/-- Facts read through a renaming. -/
def comap (ρ : Nat → Nat) (f : FirstFacts) : FirstFacts where
  nullable n := f.nullable (ρ n)
  first n t := f.first (ρ n) t

variable {f : FirstFacts} {ρ : Nat → Nat} {mode : Mode} {tokens : List Token}

theorem vanishes_comap :
    (f.comap ρ).Vanishes tokens ↔ f.Vanishes (tokens.map (Token.rename ρ)) := by
  induction tokens with
  | nil => rfl
  | cons token rest ih =>
      cases token with
      | terminal id => rfl
      | nonterminal n => exact and_congr_right fun _ => ih

theorem begins_comap {t : Nat} :
    (f.comap ρ).Begins mode tokens t ↔
      f.Begins mode (tokens.map (Token.rename ρ)) t := by
  induction tokens with
  | nil => rfl
  | cons token rest ih =>
      cases token with
      | terminal id => rfl
      | nonterminal n => exact or_congr_right (and_congr_right fun _ => ih)

end FirstFacts

open FirstFacts

variable {f : FirstFacts} {ρ : Nat → Nat} {tokens : List Token}
  {follow : Nat → Nat → Prop} {ahead : Nat → Prop}

theorem behind_comap {t : Nat} :
    Behind (f.comap ρ) ahead tokens t ↔
      Behind f ahead (tokens.map (Token.rename ρ)) t :=
  or_congr begins_comap (and_congr_left fun _ => vanishes_comap)

theorem followFits_comap :
    FollowFits (f.comap ρ) (fun n => follow (ρ n)) ahead tokens ↔
      FollowFits f follow ahead (tokens.map (Token.rename ρ)) := by
  induction tokens with
  | nil => rfl
  | cons token rest ih =>
      cases token with
      | terminal id => exact ih
      | nonterminal n =>
          exact and_congr (forall_congr' fun _ => imp_congr_left behind_comap) ih

end Analysis

namespace Grammar

open Analysis FirstFacts

variable {g g' a : Grammar} {mode : Mode} {name : String} {ρ : Nat → Nat}

/-! ## Rearranged grammars -/

/-- The same header, and under every name the same symbol; the symbols may be
declared in another order. -/
structure Rearranged (g g' : Grammar) : Prop where
  header : g'.header = g.header
  symbols (name : String) : g'.symbols.find? name = g.symbols.find? name

theorem Rearranged.symm (h : Rearranged g g') : Rearranged g' g where
  header := h.header.symm
  symbols name := (h.symbols name).symm

theorem Rearranged.mem_entries_iff (h : Rearranged g g')
    {entry : String × Symbol} :
    entry ∈ g'.symbols.entries ↔ entry ∈ g.symbols.entries := by
  rw [← Table.find?_eq_some_iff, ← Table.find?_eq_some_iff, h.symbols]

theorem Rearranged.mem_keys_iff (h : Rearranged g g') :
    name ∈ g'.symbols.keys ↔ name ∈ g.symbols.keys := by
  rw [← Table.isSome_find?_iff, ← Table.isSome_find?_iff, h.symbols]

theorem Rearranged.mem_values_iff (h : Rearranged g g') {s : Symbol} :
    s ∈ g'.symbols.values ↔ s ∈ g.symbols.values := by
  simp only [Table.values, List.mem_map, h.mem_entries_iff]

/-- A renaming takes the position of every symbol to its new position, and what
is no position to what is none. -/
def Renames (g g' : Grammar) (ρ : Nat → Nat) : Prop :=
  ∀ n, g'.symbols.at? (ρ n) = g.symbols.at? n

theorem Rearranged.exists_renames (h : Rearranged g g') :
    ∃ ρ, Renames g g' ρ := by
  have hplace : ∀ n, ∃ m, g'.symbols.at? m = g.symbols.at? n := by
    intro n
    cases hat : g.symbols.at? n with
    | none => exact ⟨g'.symbols.size, List.getElem?_eq_none (Nat.le_refl _)⟩
    | some entry =>
        have hmem := h.mem_entries_iff.mpr (List.mem_of_getElem? hat)
        exact List.getElem?_of_mem hmem
  choose ρ hρ using hplace
  exact ⟨ρ, hρ⟩

theorem Renames.symbolAt? (hρ : Renames g g' ρ) (n : Nat) :
    symbolAt? g'.symbols (ρ n) = symbolAt? g.symbols n := by
  rw [Analysis.symbolAt?, hρ n]
  rfl

theorem Renames.position? (hρ : Renames g g' ρ) {n : Nat}
    (hn : g.symbols.position? name = some n) :
    g'.symbols.position? name = some (ρ n) := by
  obtain ⟨s, hat⟩ := Table.position?_eq_some_iff.mp hn
  exact Table.position?_eq_some_iff.mpr ⟨s, (hρ n).trans hat⟩

/-! ## Right sides -/

theorem Rearranged.resolve (h : Rearranged g g') (hρ : Renames g g' ρ)
    (name : String) : g'.resolve name = (g.resolve name).map (Token.rename ρ) := by
  cases hname : g.resolve name with
  | none =>
      rw [Option.map_none, resolve_eq_none_iff, h.header, h.mem_keys_iff]
      exact resolve_eq_none_iff.mp hname
  | some token =>
      cases token with
      | terminal id =>
          rw [resolve_eq_some_terminal_iff] at hname
          exact resolve_eq_some_terminal_iff.mpr (h.header ▸ hname)
      | nonterminal n =>
          obtain ⟨hterminal, hn⟩ := resolve_eq_some_nonterminal_iff.mp hname
          exact resolve_eq_some_nonterminal_iff.mpr
            ⟨h.header ▸ hterminal, hρ.position? hn⟩

theorem Rearranged.mem_rightSides (h : Rearranged g g') (hρ : Renames g g' ρ)
    {n : Nat} {right : List Token} (mem : right ∈ g.rightSides n) :
    right.map (Token.rename ρ) ∈ g'.rightSides (ρ n) := by
  obtain ⟨s, hat, expansion, hexp, rfl⟩ := Grammar.mem_rightSides.mp mem
  refine Grammar.mem_rightSides.mpr
    ⟨s, (hρ.symbolAt? n).trans hat, expansion, hexp, ?_⟩
  rw [List.map_filterMap]
  exact List.filterMap_congr fun name _ => h.resolve hρ name

theorem Rearranged.closed_comap {f : FirstFacts} (h : Rearranged g g')
    (hρ : Renames g g' ρ) (hc : f.Closed g' mode) : (f.comap ρ).Closed g mode where
  seeded mem := hc.seeded (h.mem_rightSides hρ mem)
  first mem hbegins :=
    hc.first (h.mem_rightSides hρ mem) (begins_comap.mp hbegins)
  nullable mem hvanishes :=
    hc.nullable (h.mem_rightSides hρ mem) (vanishes_comap.mp hvanishes)

/-! ## One order says no more than the other -/

theorem Renames.factsOf_le (hρ : Renames g g' ρ) :
    factsOf g.symbols ≤ (factsOf g'.symbols).comap ρ where
  nullable {n} hn := by
    show nullableAt g'.symbols (ρ n) = true
    rw [nullableAt, hρ.symbolAt?]
    exact hn
  first {n t} ht := by
    show t ∈ firstAt g'.symbols (ρ n)
    rw [firstAt, hρ.symbolAt?]
    exact ht

theorem Rearranged.facts_le (h : Rearranged g g') (hρ : Renames g g' ρ) :
    factsOf (g.analysis mode).symbols ≤
      (factsOf (g'.analysis mode).symbols).comap ρ := by
  refine analysis_least (h.closed_comap hρ closed_analysis) ?_
  have hstart : factsOf g'.symbols ≤ factsOf (g'.analysis mode).symbols :=
    FirstFacts.le_trans start_le_facts start_le_analysis
  exact FirstFacts.le_trans hρ.factsOf_le
    ⟨fun hn => hstart.nullable hn, fun ht => hstart.first ht⟩

theorem Rearranged.follow_le (h : Rearranged g g') (hρ : Renames g g' ρ)
    {n t : Nat} (ht : t ∈ followAt (g.analysis mode).symbols n) :
    t ∈ followAt (g'.analysis mode).symbols (ρ n) := by
  cases mode with
  | firstOnly =>
      rw [followAt_analysis_firstOnly] at ht ⊢
      rwa [followAt, hρ.symbolAt?]
  | follow =>
      -- FOLLOW is the least that is closed over the FIRST facts of the same order,
      -- so `facts_le` has to come first.
      have hclosed : FollowClosed g (factsOf (g.analysis .follow).symbols)
          fun n t => t ∈ followAt (g'.analysis .follow).symbols (ρ n) := by
        intro owner right mem
        have hfits := followClosed_analysis _ _ (h.mem_rightSides hρ mem)
        exact (followFits_comap.mpr hfits).anti (h.facts_le hρ) fun _ ht => ht
      refine follow_analysis_least hclosed (fun n t ht => ?_) n t ht
      refine followAt_le_analysis ?_
      rwa [followAt, hρ.symbolAt?]

/-! ## The analysis of both -/

theorem Rearranged.undefined_iff (h : Rearranged g g') :
    g'.Undefined name ↔ g.Undefined name := by
  rw [Undefined, Undefined, h.header, h.mem_keys_iff]

theorem Rearranged.fault?_eq_none (h : Rearranged g g') (hg : g.fault? = none) :
    g'.fault? = none := by
  rw [fault?_eq_none_iff] at hg ⊢
  intro entry hentry
  have hok := hg entry (h.mem_entries_iff.mp hentry)
  simpa only [Offends, h.header, h.undefined_iff] using hok

section SamePlace

variable {n n' : Nat} {s s' : Symbol}
  (hn : g.symbols.position? name = some n)
  (hn' : g'.symbols.position? name = some n')
  (hs : symbolAt? (g.analysis mode).symbols n = some s)
  (hs' : symbolAt? (g'.analysis mode).symbols n' = some s')

include hn hn' hs hs'

theorem Rearranged.symbol_le (h : Rearranged g g') :
    (s.nullable = true → s'.nullable = true) ∧
      (∀ t ∈ s.first, t ∈ s'.first) ∧ ∀ t ∈ s.follow, t ∈ s'.follow := by
  obtain ⟨ρ, hρ⟩ := h.exists_renames
  obtain rfl : ρ n = n' := Option.some.inj ((hρ.position? hn).symm.trans hn')
  have hfacts : factsOf (g.analysis mode).symbols ≤
      (factsOf (g'.analysis mode).symbols).comap ρ := h.facts_le hρ
  refine ⟨fun hnull => ?_, fun t ht => ?_, fun t ht => ?_⟩
  · have hle := hfacts.nullable (n := n)
    simpa [factsOf, FirstFacts.comap, nullableAt, hs, hs', hnull] using hle
  · have hle := hfacts.first (n := n) (t := t)
    simpa [factsOf, FirstFacts.comap, firstAt, hs, hs', ht] using hle
  · have hle : t ∈ followAt (g.analysis mode).symbols n →
        t ∈ followAt (g'.analysis mode).symbols (ρ n) := h.follow_le hρ
    simpa [followAt, hs, hs', ht] using hle

theorem Rearranged.symbol_eq (h : Rearranged g g') (hexp : g.Expanded) :
    s' = s := by
  obtain ⟨start, hfind, hat⟩ := find?_of_position? hn
  obtain ⟨start', hfind', hat'⟩ := find?_of_position? hn'
  obtain rfl : start = start' :=
    Option.some.inj (hfind.symm.trans ((h.symbols name).symm.trans hfind'))
  have hline : s.expansions = start.expansions := by
    obtain ⟨same, hsame, heq⟩ := expansions_of_outline outline_analysis hat
    rw [← heq, Option.some.inj (hsame.symm.trans hs)]
  have hline' : s'.expansions = start.expansions := by
    obtain ⟨same, hsame, heq⟩ := expansions_of_outline outline_analysis hat'
    rw [← heq, Option.some.inj (hsame.symm.trans hs')]
  obtain ⟨hnull, hfirst, hfollow⟩ := h.symbol_le hn hn' hs hs'
  obtain ⟨hnull', hfirst', hfollow'⟩ := h.symm.symbol_le hn' hn hs' hs
  refine symbol_ext (hline'.trans hline.symm) ?_ ?_ ?_ ?_
  · rw [hline]
    exact hexp start (mem_values_of_symbolAt hat)
  · exact Bool.eq_iff_iff.mpr ⟨hnull', hnull⟩
  · exact TerminalSet.ext fun t => ⟨hfirst' t, hfirst t⟩
  · exact TerminalSet.ext fun t => ⟨hfollow' t, hfollow t⟩

end SamePlace

theorem Rearranged.analyze (h : Rearranged g g') (hexp : g.Expanded)
    (ha : g.analyze mode = .ok a) :
    ∃ a', g'.analyze mode = .ok a' ∧ Rearranged a a' := by
  have hvalid : g'.fault? = none := h.fault?_eq_none (analyze_eq_ok ha).1
  have ha' : g'.analyze mode = .ok { g' with symbols := _ } :=
    analyze_of_valid hvalid
  refine ⟨_, ha', ?_, fun name => ?_⟩
  · rw [header_of_analyze ha, header_of_analyze ha', h.header]
  · by_cases hkey : name ∈ g.symbols.keys
    · obtain ⟨n, hn⟩ := exists_position?_of_mem hkey
      obtain ⟨n', hn'⟩ := exists_position?_of_mem (h.mem_keys_iff.mpr hkey)
      obtain ⟨s, hfind, hs⟩ := find?_of_analyze ha hn
      obtain ⟨s', hfind', hs'⟩ := find?_of_analyze ha' hn'
      rw [symbols_of_analyze ha] at hs
      rw [hfind, hfind', h.symbol_eq hn hn' hs hs' hexp]
    · have hkey' := mt h.mem_keys_iff.mp hkey
      rw [← keys_of_analyze ha, ← Table.find?_eq_none_iff] at hkey
      rw [← keys_of_analyze ha', ← Table.find?_eq_none_iff] at hkey'
      rw [hkey, hkey']

end Grammar

end Descent
