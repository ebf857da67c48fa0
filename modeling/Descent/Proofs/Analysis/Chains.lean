import Mathlib.Logic.Relation
import Descent.Proofs.Analysis.Exact

/-!
# FIRST sets without the terminals behind nullable symbols

When FOLLOW is not computed, a terminal gets into a FIRST set only where an
expansion begins with it, and from there it is handed on: from a symbol to every
symbol that has it in an expansion with nothing but nullable symbols in front.
So FIRST is what chains of such steps reach (`mem_firstAt_firstOnly_iff`).

The chains are closed facts, which is one inclusion. For the other one, closed
facts hand a terminal back along a chain, link by link.
-/

namespace Descent

namespace Grammar

open Analysis FirstFacts

variable {g₀ g : Grammar} {source : String} {f : FirstFacts}

/-- In one of the first symbol's expansions there are only symbols that derive
the empty form in front of the second symbol. -/
def Leads (g : Grammar) (n m : Nat) : Prop :=
  ∃ before after, before ++ .nonterminal m :: after ∈ g.rightSides n ∧
    ∀ token ∈ before, ∃ k, token = .nonterminal k ∧
      g.Derives [.nonterminal k] []

/-- A chain of symbols, each leading to the next, ends in a symbol with an
expansion that begins with the terminal. -/
def ChainTo (g : Grammar) (n t : Nat) : Prop :=
  ∃ m rest, Relation.ReflTransGen g.Leads n m ∧
    .terminal t :: rest ∈ g.rightSides m

/-! ## Chains as facts -/

theorem vanishes_iff {tokens : List Token} :
    f.Vanishes tokens ↔
      ∀ token ∈ tokens, ∃ k, token = .nonterminal k ∧ f.nullable k := by
  induction tokens with
  | nil => exact iff_of_true trivial fun _ h => absurd h List.not_mem_nil
  | cons token rest ih =>
      rw [List.forall_mem_cons, ← ih]
      cases token with
      | terminal id =>
          refine ⟨fun h => h.elim, fun h => ?_⟩
          obtain ⟨_, heq, _⟩ := h.1
          cases heq
      | nonterminal n =>
          simp only [Vanishes, Token.nonterminal.injEq, exists_eq_left']

/-- With terminals not counting, what begins a sequence begins a symbol in it
that has only nullable symbols in front. -/
theorem begins_firstOnly_iff {tokens : List Token} {t : Nat} :
    f.Begins .firstOnly tokens t ↔
      ∃ before m after, tokens = before ++ .nonterminal m :: after ∧
        f.Vanishes before ∧ f.first m t := by
  constructor
  · intro h
    induction tokens with
    | nil => exact h.elim
    | cons token rest ih =>
        cases token with
        | terminal id => cases h.1
        | nonterminal n =>
            rcases h with hfirst | ⟨hnull, hrest⟩
            · exact ⟨[], n, rest, rfl, trivial, hfirst⟩
            · obtain ⟨before, m, after, rfl, hv, hfirst⟩ := ih hrest
              exact ⟨.nonterminal n :: before, m, after, rfl, ⟨hnull, hv⟩, hfirst⟩
  · rintro ⟨before, m, after, rfl, hv, hfirst⟩
    exact begins_append.mpr (Or.inr ⟨hv, Or.inl hfirst⟩)

/-- The symbols that derive the empty form, and what chains reach. -/
def chained (g : Grammar) : FirstFacts where
  nullable n := g.Derives [.nonterminal n] []
  first := g.ChainTo

theorem ChainTo.of_leads {n m t : Nat} (hlink : g.Leads n m)
    (h : g.ChainTo m t) : g.ChainTo n t := by
  obtain ⟨last, rest, hchain, mem⟩ := h
  exact ⟨last, rest, .head hlink hchain, mem⟩

theorem chained_closed (g : Grammar) : (chained g).Closed g .firstOnly where
  seeded mem := ⟨_, _, .refl, mem⟩
  first mem h := by
    obtain ⟨before, m, after, rfl, hv, hfirst⟩ := begins_firstOnly_iff.mp h
    exact ChainTo.of_leads ⟨before, after, mem, vanishes_iff.mp hv⟩ hfirst
  nullable mem h := by
    have hall := (vanishes_iff (f := chained g)).mp h
    exact (derived_closed g).nullable mem (vanishes_iff.mpr hall)

/-- Closed facts hand a terminal back along a chain. -/
theorem first_of_chainTo (hc : f.Closed g .firstOnly) {n t : Nat}
    (h : g.ChainTo n t) : f.first n t := by
  obtain ⟨m, rest, hchain, mem⟩ := h
  induction hchain using Relation.ReflTransGen.head_induction_on with
  | refl => exact hc.seeded mem
  | head hlink _ ih =>
      obtain ⟨before, after, mem', hbefore⟩ := hlink
      refine hc.first mem' (begins_firstOnly_iff.mpr
        ⟨before, _, after, rfl, vanishes_iff.mpr fun token htoken => ?_, ih⟩)
      obtain ⟨k, heq, hd⟩ := hbefore token htoken
      exact ⟨k, heq, hc.nullable_of_derives hd⟩

/-! ## The sets after an analysis -/

theorem factsOf_le_chained (hfresh : g.Fresh) (hexp : g.Expanded) :
    factsOf g.symbols ≤ chained g :=
  hfresh.factsOf_le_of_expanded hexp fun _ s hat hnil =>
    .of_mem (mem_rightSides.mpr ⟨s, hat, [], hnil, rfl⟩)

/-- FIRST by position. -/
theorem mem_firstAt_firstOnly_iff (hparse : Grammar.parse source = .ok g₀)
    (hanalyze : g₀.analyze .firstOnly = .ok g) {n t : Nat} :
    t ∈ firstAt g.symbols n ↔ g₀.ChainTo n t := by
  constructor
  · intro h
    rw [symbols_of_analyze hanalyze] at h
    exact (analysis_least (chained_closed g₀) (factsOf_le_chained
      (fresh_of_parse hparse) (expanded_of_parse hparse))).first h
  · intro h
    exact first_of_chainTo (closed_of_analyze hanalyze) h

theorem follow_of_firstOnly (hparse : Grammar.parse source = .ok g₀)
    (hanalyze : g₀.analyze .firstOnly = .ok g) {s : Symbol}
    (hs : s ∈ g.symbols.values) : s.follow = ∅ := by
  obtain ⟨n, hat⟩ := exists_symbolAt_of_mem_values hs
  rw [← followAt_of_symbolAt hat, symbols_of_analyze hanalyze,
    followAt_analysis_firstOnly, (fresh_of_parse hparse).followAt]

/-- Without FOLLOW to compute, the FIRST set of a symbol holds a terminal exactly
if a chain of symbols, each in an expansion of the one before with only nullable
symbols in front, ends in a symbol with an expansion that begins with the
terminal. No FOLLOW set holds anything. -/
theorem mem_first_iff_chain (hparse : Grammar.parse source = .ok g₀)
    (hanalyze : g₀.analyze .firstOnly = .ok g) :
    (∀ name n, g₀.symbols.position? name = some n →
      ∃ s, g.symbols.find? name = some s ∧
        ∀ t, t ∈ s.first ↔ ∃ m rest, Relation.ReflTransGen g₀.Leads n m ∧
          .terminal t :: rest ∈ g₀.rightSides m) ∧
    ∀ s ∈ g.symbols.values, s.follow = ∅ := by
  refine ⟨fun name n hname => ?_, fun s => follow_of_firstOnly hparse hanalyze⟩
  obtain ⟨s, hfind, hat⟩ := find?_of_analyze hanalyze hname
  refine ⟨s, hfind, fun t => ?_⟩
  rw [← firstAt_of_symbolAt hat]
  exact mem_firstAt_firstOnly_iff hparse hanalyze

/-- A source in which `X` stands behind nullable symbols only. -/
def prefixSource : String :=
  "X = x\nY = y\n%%\na := b c X\nb :=\nc := b\nc := Y\nd := a\n%%"

/-- The grammar of `prefixSource`. -/
def prefixGrammar : Grammar where
  header := .ofItems [.terminal "X" "x", .terminal "Y" "y"]
  symbols := Symbol.tableOfRules [⟨"a", ["b", "c", "X"]⟩, ⟨"b", []⟩,
    ⟨"c", ["b"]⟩, ⟨"c", ["Y"]⟩, ⟨"d", ["a"]⟩]

/-- The same grammar with its FIRST sets. -/
def prefixAnalyzed : Grammar :=
  { prefixGrammar with symbols := (prefixGrammar.analysis .firstOnly).symbols }

set_option maxRecDepth 4000 in
theorem parse_prefixSource : Grammar.parse prefixSource = .ok prefixGrammar := by
  rfl

theorem analyze_prefixGrammar :
    prefixGrammar.analyze .firstOnly = .ok prefixAnalyzed := by
  rfl

theorem mem_first_iff_chain_prefix :
    Grammar.parse prefixSource = .ok prefixGrammar ∧
      prefixGrammar.analyze .firstOnly = .ok prefixAnalyzed ∧
      prefixGrammar.symbols.position? "d" = some 3 ∧
      (∃ s, prefixAnalyzed.symbols.find? "d" = some s ∧
        ∀ t, t ∈ s.first ↔ ∃ m rest,
          Relation.ReflTransGen prefixGrammar.Leads 3 m ∧
            .terminal t :: rest ∈ prefixGrammar.rightSides m) ∧
      ∀ s ∈ prefixAnalyzed.symbols.values, s.follow = ∅ :=
  have hboth := mem_first_iff_chain parse_prefixSource analyze_prefixGrammar
  ⟨parse_prefixSource, analyze_prefixGrammar, rfl, hboth.1 "d" 3 rfl, hboth.2⟩

end Grammar

end Descent
