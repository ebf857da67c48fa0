import Descent.Proofs.Analysis.Result
import Descent.Proofs.Grammar.Fresh

/-!
# FIRST and FOLLOW are exact

For a grammar read from a file and analyzed with FOLLOW, the sets say neither
more nor less than the derivations of the grammar.

Both directions have been prepared. The table is closed, and closed facts hold
of every derivation. Derivability is closed too, it holds of the fresh table
that the analysis starts from, and the table in the end is the least closed one
above that. So nullability and FIRST are those of derivations
(`mem_firstAt_iff`), and on top of them FOLLOW is (`mem_followAt_iff`).
-/

namespace Descent.Grammar

open Analysis FirstFacts

variable {source : String} {g₀ g : Grammar}

theorem facts_le_derived (hparse : Grammar.parse source = .ok g₀)
    (hanalyze : g₀.analyze .follow = .ok g) :
    factsOf g.symbols ≤ derived g₀ := by
  rw [symbols_of_analyze hanalyze]
  exact analysis_least (derived_closed g₀)
    (factsOf_le_derived (fresh_of_parse hparse) (expanded_of_parse hparse))

theorem closed_of_analyze {mode : Mode} (hanalyze : g₀.analyze mode = .ok g) :
    (factsOf g.symbols).Closed g₀ mode := by
  rw [symbols_of_analyze hanalyze]
  exact closed_analysis

theorem closed_of_analyze_self {mode : Mode} (hanalyze : g₀.analyze mode = .ok g) :
    (factsOf g.symbols).Closed g mode :=
  (closed_of_analyze hanalyze).congr (rightSides_of_analyze hanalyze)

/-- The table says no more than closed facts that agree with it on what is nullable. -/
theorem facts_le_of_closed {mode : Mode} (hparse : Grammar.parse source = .ok g₀)
    (hanalyze : g₀.analyze mode = .ok g) {f : FirstFacts} (hf : f.Closed g mode)
    (hnull : ∀ n, (factsOf g.symbols).nullable n → f.nullable n) :
    factsOf g.symbols ≤ f := by
  rw [symbols_of_analyze hanalyze]
  refine analysis_least (hf.congr (rightSides_of_analyze hanalyze).symm)
    ((fresh_of_parse hparse).factsOf_le_of_expanded (expanded_of_parse hparse)
      fun n s hat hnil => hnull n ?_)
  exact (closed_of_analyze hanalyze).nullable
    (mem_rightSides.mpr ⟨s, hat, [], hnil, rfl⟩) trivial

theorem followClosed_of_analyze (hanalyze : g₀.analyze .follow = .ok g) :
    FollowClosed g₀ (factsOf g.symbols) (followOfTable g.symbols) := by
  rw [symbols_of_analyze hanalyze]
  exact followClosed_analysis

/-- FIRST by position: a terminal is in it exactly if a derivation puts the
terminal in front. -/
theorem mem_firstAt_iff (hparse : Grammar.parse source = .ok g₀)
    (hanalyze : g₀.analyze .follow = .ok g) {n t : Nat} :
    t ∈ firstAt g.symbols n ↔
      ∃ rest, g₀.DerivesProperly [.nonterminal n] (.terminal t :: rest) := by
  constructor
  · intro h
    exact (facts_le_derived hparse hanalyze).first h
  · intro h
    obtain ⟨rest, hd⟩ := h
    exact (closed_of_analyze hanalyze).first_of_derives hd.derives

theorem terminal_lt_of_mem_firstAt (hparse : Grammar.parse source = .ok g₀)
    (hanalyze : g₀.analyze .follow = .ok g) {n t : Nat}
    (h : t ∈ firstAt g.symbols n) : t < g₀.header.terminals.size := by
  have hclosed : (factsWithin (· < g₀.header.terminals.size)).Closed g₀ .follow :=
    factsWithin_closed fun mem _ ht => terminal_lt_of_mem mem ht
  have hd := (mem_firstAt_iff hparse hanalyze).mp h
  obtain ⟨rest, hd⟩ := hd
  exact hclosed.first_of_derives hd.derives

/-- FOLLOW by position: a terminal is in it exactly if it stands right behind
the symbol in some derived form. -/
theorem mem_followAt_iff (hparse : Grammar.parse source = .ok g₀)
    (hanalyze : g₀.analyze .follow = .ok g) {n t : Nat} :
    t ∈ followAt g.symbols n ↔ followed g₀ n t := by
  constructor
  · intro h
    rw [symbols_of_analyze hanalyze] at h
    refine follow_analysis_least ?_ ?_ n t h
    · have hle := facts_le_derived hparse hanalyze
      rw [symbols_of_analyze hanalyze] at hle
      intro owner right mem
      exact (followed_closed g₀ owner right mem).anti hle fun _ ht => ht
    · intro m u hu
      rw [(fresh_of_parse hparse).followAt] at hu
      exact absurd hu TerminalSet.not_mem_empty
  · intro h
    obtain ⟨a, -, before, after, hd⟩ := h
    exact (followClosed_of_analyze hanalyze).follow_of_derives
      (closed_of_analyze hanalyze) hd

/-! ## The sets by name -/

/-- FIRST is exact: of the declared terminals it holds those that a derivation
of at least one step puts in front of a form, and it holds nothing else. -/
theorem mem_first_iff_derivesProperly (hparse : Grammar.parse source = .ok g₀)
    (hanalyze : g₀.analyze .follow = .ok g) {name : String} {n : Nat}
    (hname : g₀.symbols.position? name = some n) :
    ∃ symbol, g.symbols.find? name = some symbol ∧
      (∀ t, t < g₀.header.terminals.size → (t ∈ symbol.first ↔
        ∃ rest, g₀.DerivesProperly [.nonterminal n] (.terminal t :: rest))) ∧
      ∀ t ∈ symbol.first, t < g₀.header.terminals.size := by
  obtain ⟨symbol, hfind, hat⟩ := find?_of_analyze hanalyze hname
  have hfirst := firstAt_of_symbolAt hat
  refine ⟨symbol, hfind, fun t _ => ?_, fun t ht => ?_⟩
  · rw [← hfirst]
    exact mem_firstAt_iff hparse hanalyze
  · rw [← hfirst] at ht
    exact terminal_lt_of_mem_firstAt hparse hanalyze ht

/-- A source for bracketed lists of items. -/
def listSource : String :=
  "Open = o\nItem = i\nClose = c\n%%\nlist := Open items Close\n" ++
    "items := Item items\nitems :=\n%%"

/-- The grammar of `listSource`. -/
def listGrammar : Grammar where
  header := .ofItems
    [.terminal "Open" "o", .terminal "Item" "i", .terminal "Close" "c"]
  symbols := Symbol.tableOfRules [⟨"list", ["Open", "items", "Close"]⟩,
    ⟨"items", ["Item", "items"]⟩, ⟨"items", []⟩]

/-- The same grammar with its sets. -/
def listAnalyzed : Grammar :=
  { listGrammar with symbols := (listGrammar.analysis .follow).symbols }

set_option maxRecDepth 4000 in
theorem parse_listSource : Grammar.parse listSource = .ok listGrammar := by
  rfl

theorem analyze_listGrammar :
    listGrammar.analyze .follow = .ok listAnalyzed := by
  rfl

theorem mem_first_iff_derivesProperly_items :
    Grammar.parse listSource = .ok listGrammar ∧
      listGrammar.analyze .follow = .ok listAnalyzed ∧
      listGrammar.symbols.position? "items" = some 1 ∧
      ∃ symbol, listAnalyzed.symbols.find? "items" = some symbol ∧
        (∀ t, t < listGrammar.header.terminals.size → (t ∈ symbol.first ↔
          ∃ rest, listGrammar.DerivesProperly [.nonterminal 1]
            (.terminal t :: rest))) ∧
        ∀ t ∈ symbol.first, t < listGrammar.header.terminals.size :=
  ⟨parse_listSource, analyze_listGrammar, rfl,
    mem_first_iff_derivesProperly parse_listSource analyze_listGrammar rfl⟩

/-- FOLLOW is exact: it holds the declared terminals that stand right behind the
symbol in a form that some declared symbol derives. -/
theorem mem_follow_iff_derives (hparse : Grammar.parse source = .ok g₀)
    (hanalyze : g₀.analyze .follow = .ok g) {name : String} {n : Nat}
    (hname : g₀.symbols.position? name = some n) :
    ∃ symbol, g.symbols.find? name = some symbol ∧
      ∀ t, t < g₀.header.terminals.size → (t ∈ symbol.follow ↔
        ∃ a, a < g₀.symbols.size ∧ ∃ before after,
          g₀.Derives [.nonterminal a]
            (before ++ .nonterminal n :: .terminal t :: after)) := by
  obtain ⟨symbol, hfind, hat⟩ := find?_of_analyze hanalyze hname
  refine ⟨symbol, hfind, fun t _ => ?_⟩
  rw [← followAt_of_symbolAt hat]
  exact mem_followAt_iff hparse hanalyze

theorem mem_follow_iff_derives_items :
    Grammar.parse listSource = .ok listGrammar ∧
      listGrammar.analyze .follow = .ok listAnalyzed ∧
      listGrammar.symbols.position? "items" = some 1 ∧
      ∃ symbol, listAnalyzed.symbols.find? "items" = some symbol ∧
        ∀ t, t < listGrammar.header.terminals.size → (t ∈ symbol.follow ↔
          ∃ a, a < listGrammar.symbols.size ∧ ∃ before after,
            listGrammar.Derives [.nonterminal a]
              (before ++ .nonterminal 1 :: .terminal t :: after)) :=
  ⟨parse_listSource, analyze_listGrammar, rfl,
    mem_follow_iff_derives parse_listSource analyze_listGrammar rfl⟩

end Descent.Grammar
