import Descent.Proofs.Analysis.FollowPasses

/-!
# What an analysis leaves behind

The two loops put together. An accepted grammar comes back with its header, its
user code and the outline of its symbols unchanged. The facts of its table are
the least closed ones above the facts it came with, and the same goes for its
FOLLOW sets where FOLLOW is computed.

The passes for FOLLOW keep nullability and FIRST, so these are in both modes
what the work queue has computed (`factsOf_analysis`).
-/

namespace Descent.Grammar

open Analysis FirstFacts

variable {g g' : Grammar} {mode : Mode}

theorem analyze_eq_ok (h : g.analyze mode = .ok g') :
    g.fault? = none ∧ g' = { g with symbols := (g.analysis mode).symbols } := by
  unfold analyze at h
  split at h
  · cases h
  · next hfault =>
      injection h with h
      exact ⟨hfault, h.symm⟩

theorem analyze_of_valid (h : g.fault? = none) :
    g.analyze mode = .ok { g with symbols := (g.analysis mode).symbols } := by
  rw [analyze, h]

theorem header_of_analyze (h : g.analyze mode = .ok g') :
    g'.header = g.header := by rw [(analyze_eq_ok h).2]

theorem symbols_of_analyze (h : g.analyze mode = .ok g') :
    g'.symbols = (g.analysis mode).symbols := by rw [(analyze_eq_ok h).2]

/-! ## The facts of the table -/

theorem outline_analysis :
    outline (g.analysis mode).symbols = outline g.symbols := by
  cases mode with
  | firstOnly => exact outline_firstSets
  | follow => exact outline_followSets.trans outline_firstSets

theorem factsOf_analysis :
    factsOf (g.analysis mode).symbols =
      factsOf (firstSets mode g.productions g.symbols).symbols := by
  cases mode with
  | firstOnly => rfl
  | follow => exact factsOf_followSets

theorem closed_analysis : (factsOf (g.analysis mode).symbols).Closed g mode := by
  rw [factsOf_analysis]
  exact firstSets_closed

theorem analysis_least {f : FirstFacts} (hc : f.Closed g mode)
    (hle : factsOf g.symbols ≤ f) : factsOf (g.analysis mode).symbols ≤ f := by
  rw [factsOf_analysis]
  exact firstSets_least hc hle

/-- Without FOLLOW to compute, the FOLLOW sets stay what they were. -/
theorem followAt_analysis_firstOnly (n : Nat) :
    followAt (g.analysis .firstOnly).symbols n = followAt g.symbols n :=
  followAt_firstSets n

theorem followClosed_analysis :
    FollowClosed g (factsOf (g.analysis .follow).symbols)
      (followOfTable (g.analysis .follow).symbols) :=
  followSets_closed outline_firstSets

theorem follow_analysis_least {follow : Nat → Nat → Prop}
    (hc : FollowClosed g (factsOf (g.analysis .follow).symbols) follow)
    (hle : ∀ n t, t ∈ followAt g.symbols n → follow n t) :
    ∀ n t, t ∈ followAt (g.analysis .follow).symbols n → follow n t := by
  refine followSets_least outline_firstSets ?_ ?_
  · rw [factsOf_analysis] at hc
    exact hc
  · intro n t ht
    rw [followAt_firstSets] at ht
    exact hle n t ht

/-! ## The same grammar -/

theorem rightSides_of_analyze (h : g.analyze mode = .ok g') :
    g'.rightSides = g.rightSides :=
  rightSides_congr (congrArg Header.terminals (header_of_analyze h))
    (by rw [symbols_of_analyze h, outline_analysis])

theorem keys_of_analyze (h : g.analyze mode = .ok g') :
    g'.symbols.keys = g.symbols.keys := by
  rw [keys_eq_map_outline, keys_eq_map_outline, symbols_of_analyze h,
    outline_analysis]

/-- A symbol keeps its name and its position. -/
theorem find?_of_analyze (h : g.analyze mode = .ok g') {name : String} {n : Nat}
    (hname : g.symbols.position? name = some n) :
    ∃ symbol, g'.symbols.find? name = some symbol ∧
      symbolAt? g'.symbols n = some symbol := by
  have hname' : g'.symbols.position? name = some n := by
    unfold Table.position? at hname ⊢
    rw [keys_of_analyze h, hname]
  exact find?_of_position? hname'

end Descent.Grammar
