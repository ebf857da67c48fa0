import Descent.Proofs.Analysis.Worklist

/-!
# The passes reach the least closed FOLLOW sets

A pass updates every place of every production in order. The flag of a pass is
the disjunction of the flags of its updates, so a pass that leaves it down has
found the table closed (`followPass_of_snd_eq_false`), and a pass that raises
it has put a terminal into some FOLLOW set. There are no more terminals to put
in than the budget has passes, hence the last pass is one of the first kind and
the result is closed (`followSets_closed`).

As with FIRST, the sets never grow beyond closed facts that they started below
(`followSets_least`). Nullability and FIRST are read all the time but never
changed, so there is one set of facts for all passes.
-/

namespace Descent.Analysis

open FirstFacts Grammar

variable {g : Grammar} {symbols : SymbolTable}

/-! ## One pass -/

/-- A list of productions of a grammar, for the symbols of a table. -/
def Covered (symbols : SymbolTable) (all : List Production) : Prop :=
  ∀ p ∈ all, Mentions symbols p.right

theorem Covered.next {p : Production} {all : List Production}
    (h : Covered symbols (p :: all)) :
    Covered (updateFollow p.owner symbols p.right).1 all :=
  fun q hq => (h q (List.mem_cons_of_mem p hq)).of_outline outline_updateFollow

theorem covered_productionList (hout : outline symbols = outline g.symbols) :
    Covered symbols g.productionList :=
  fun _ hp => (mentions_of_mem (right_mem_rightSides hp)).of_outline hout

theorem outline_followPass {all : List Production} :
    outline (followPass all symbols).1 = outline symbols := by
  induction all generalizing symbols with
  | nil => rfl
  | cons p all ih => rw [followPass, ih, outline_updateFollow]

theorem factsOf_followPass {all : List Production} :
    factsOf (followPass all symbols).1 = factsOf symbols := by
  induction all generalizing symbols with
  | nil => rfl
  | cons p all ih => rw [followPass, ih, factsOf_updateFollow]

theorem followAt_followPass_of_mem {all : List Production} {n t : Nat}
    (h : t ∈ followAt symbols n) : t ∈ followAt (followPass all symbols).1 n := by
  induction all generalizing symbols with
  | nil => exact h
  | cons p all ih =>
      rw [followPass]
      exact ih (followAt_updateFollow_of_mem h)

theorem follow_followPass_le {f : FirstFacts} {follow : Nat → Nat → Prop}
    {all : List Production} (hfacts : factsOf symbols ≤ f)
    (hcov : Covered symbols all)
    (hfits : ∀ p ∈ all, FollowFits f follow (follow p.owner) p.right)
    (hle : ∀ n t, t ∈ followAt symbols n → follow n t) :
    ∀ n t, t ∈ followAt (followPass all symbols).1 n → follow n t := by
  induction all generalizing symbols with
  | nil => exact hle
  | cons p all ih =>
      have hp := List.mem_cons_self (a := p) (l := all)
      rw [followPass]
      refine ih ?_ hcov.next (fun q hq => hfits q (List.mem_cons_of_mem p hq)) ?_
      · rw [factsOf_updateFollow]
        exact hfacts
      · exact follow_updateFollow_le hfacts (hcov p hp) (hfits p hp) hle

theorem followPass_of_snd_eq_false {all : List Production}
    (hcov : Covered symbols all) (h : (followPass all symbols).2 = false) :
    (∀ p ∈ all, FollowFits (factsOf symbols) (followOfTable symbols)
        (followOfTable symbols p.owner) p.right) ∧
      (followPass all symbols).1 = symbols := by
  induction all with
  | nil => exact ⟨fun p hp => absurd hp List.not_mem_nil, rfl⟩
  | cons p all ih =>
      rw [followPass] at h ⊢
      simp only [Bool.or_eq_false_iff] at h ⊢
      obtain ⟨hhere, hthere⟩ := h
      have hfits := updateFollow_of_snd_eq_false (hcov p List.mem_cons_self) hhere
      have hcov' := hcov.next
      rw [updateFollow_eq_self_of_snd hhere] at hthere hcov' ⊢
      obtain ⟨hrest, hsame⟩ := ih hcov' hthere
      refine ⟨fun q hq => ?_, hsame⟩
      rcases List.mem_cons.mp hq with rfl | hq
      · exact hfits
      · exact hrest q hq

theorem followPass_of_snd_eq_true {all : List Production}
    (h : (followPass all symbols).2 = true) :
    ∃ n t, n < symbols.size ∧ t ∈ followAt (followPass all symbols).1 n ∧
      ¬ t ∈ followAt symbols n := by
  induction all generalizing symbols with
  | nil => cases h
  | cons p all ih =>
      rw [followPass] at h ⊢
      simp only [Bool.or_eq_true] at h ⊢
      rcases h with hhere | hthere
      · obtain ⟨n, t, hn, ht, hnot⟩ := updateFollow_of_snd_eq_true hhere
        exact ⟨n, t, hn, followAt_followPass_of_mem ht, hnot⟩
      · obtain ⟨n, t, hn, ht, hnot⟩ := ih hthere
        rw [size_eq_of_outline outline_updateFollow] at hn
        exact ⟨n, t, hn, ht, fun h => hnot (followAt_updateFollow_of_mem h)⟩

/-! ## Runs -/

/-- A run keeps what every pass keeps. -/
theorem FollowRun.run_preserves {P : SymbolTable → Prop}
    (hpass : ∀ symbols, P symbols →
      P (followPass g.productions.all symbols).1) :
    ∀ {budget : Nat} {r : FollowRun}, P r.symbols →
      P (run g.productions budget r).symbols := by
  intro budget
  induction budget with
  | zero => intro r h; exact h
  | succ budget ih =>
      intro r h
      rw [run]
      split
      · exact ih (hpass r.symbols h)
      · exact hpass r.symbols h

/-- Terminals that are not yet in the FOLLOW sets of the symbols. -/
def missing (g : Grammar) (terminals : TerminalSet) (symbols : SymbolTable) :
    Nat :=
  ∑ n ∈ Finset.range g.symbols.size,
    (terminals.size - (followAt symbols n).size)

theorem missing_le {terminals : TerminalSet} :
    missing g terminals symbols ≤ g.symbols.size * terminals.size := by
  have hle : missing g terminals symbols ≤
      ∑ _n ∈ Finset.range g.symbols.size, terminals.size :=
    Finset.sum_le_sum fun n _ => Nat.sub_le _ _
  rw [Finset.sum_const, Finset.card_range] at hle
  exact hle

/-- A table whose FOLLOW sets, and what the facts put in front of them, lie
within a set of terminals. -/
structure Bounded (g : Grammar) (terminals : TerminalSet)
    (symbols : SymbolTable) : Prop where
  outline : outline symbols = outline g.symbols
  facts : factsOf symbols ≤ factsWithin (· ∈ terminals)
  follow {n t : Nat} (h : t ∈ followAt symbols n) : t ∈ terminals

theorem followFits_within {f : FirstFacts} {terminals : TerminalSet}
    (hle : f ≤ factsWithin (· ∈ terminals)) {tokens : List Token}
    (hin : ∀ u, .terminal u ∈ tokens → u ∈ terminals) :
    FollowFits f (fun _ t => t ∈ terminals) (fun t => t ∈ terminals) tokens := by
  induction tokens with
  | nil => trivial
  | cons token rest ih =>
      have hin' : ∀ u, .terminal u ∈ rest → u ∈ terminals :=
        fun u hu => hin u (List.mem_cons_of_mem token hu)
      cases token with
      | terminal id => exact ih hin'
      | nonterminal n =>
          refine ⟨fun t ht => ?_, ih hin'⟩
          rcases ht with hbegins | ⟨_, ht⟩
          · exact allowed_of_begins hin' (hbegins.mono hle)
          · exact ht

theorem Bounded.pass {terminals : TerminalSet}
    (hin : ∀ {n : Nat} {right : List Token}, right ∈ g.rightSides n →
      ∀ u, .terminal u ∈ right → u ∈ terminals)
    (h : Bounded g terminals symbols) :
    Bounded g terminals (followPass g.productions.all symbols).1 where
  outline := outline_followPass.trans h.outline
  facts := by
    rw [factsOf_followPass]
    exact h.facts
  follow := by
    have hle : ∀ n t, t ∈ followAt (followPass g.productions.all symbols).1 n →
        t ∈ terminals :=
      follow_followPass_le h.facts (covered_productionList h.outline)
        (fun _ hp => followFits_within (le_refl _)
          (hin (right_mem_rightSides hp)))
        (fun _ _ ht => h.follow ht)
    intro n t ht
    exact hle n t ht

/-- A pass with its flag up uses up a missing terminal. -/
theorem Bounded.missing_pass {terminals : TerminalSet}
    (h : Bounded g terminals symbols)
    (h' : Bounded g terminals (followPass g.productions.all symbols).1)
    (hflag : (followPass g.productions.all symbols).2 = true) :
    missing g terminals (followPass g.productions.all symbols).1 + 1 ≤
      missing g terminals symbols := by
  obtain ⟨o, t, ho, ht, hnot⟩ := followPass_of_snd_eq_true hflag
  rw [size_eq_of_outline h.outline] at ho
  have hle : ∀ n, (followAt symbols n).size ≤
      (followAt (followPass g.productions.all symbols).1 n).size := fun n =>
    TerminalSet.size_le_of_subset fun _ h => followAt_followPass_of_mem h
  have hlt : (followAt symbols o).size <
      (followAt (followPass g.productions.all symbols).1 o).size :=
    TerminalSet.size_lt_of_subset
      (fun _ h => followAt_followPass_of_mem h) ht hnot
  have hmax : (followAt (followPass g.productions.all symbols).1 o).size ≤
      terminals.size := TerminalSet.size_le_of_subset fun _ h => h'.follow h
  refine sum_add_le ho (fun n => ?_) ?_
  · exact Nat.sub_le_sub_left (hle n) _
  · omega

theorem FollowRun.run_closed (terminals : TerminalSet)
    (hin : ∀ {n : Nat} {right : List Token}, right ∈ g.rightSides n →
      ∀ u, .terminal u ∈ right → u ∈ terminals) :
    ∀ {budget : Nat} {r : FollowRun}, Bounded g terminals r.symbols →
      missing g terminals r.symbols < budget →
      FollowClosed g (factsOf (run g.productions budget r).symbols)
        (followOfTable (run g.productions budget r).symbols) := by
  intro budget
  induction budget with
  | zero => intro r _ hlt; exact absurd hlt (Nat.not_lt_zero _)
  | succ budget ih =>
      intro r hb hlt
      rw [run]
      split
      · next hflag =>
          have hdown := hb.missing_pass (hb.pass hin) hflag
          have hlt' : missing g terminals
              (followPass g.productions.all r.symbols).1 < budget := by omega
          exact ih (hb.pass hin) hlt'
      · next hflag =>
          rw [Bool.not_eq_true] at hflag
          obtain ⟨hfits, hsame⟩ :=
            followPass_of_snd_eq_false (covered_productionList hb.outline) hflag
          intro owner right mem
          obtain ⟨p, hp, rfl, rfl⟩ := mem_rightSides_iff.mp mem
          have hlast : (followPass g.productions.all r.symbols).1 = r.symbols := hsame
          rw [hlast]
          exact hfits p hp

/-! ## The result -/

variable (hout : outline symbols = outline g.symbols)

/-- What every pass keeps holds in the end. -/
theorem followSets_preserves {P : SymbolTable → Prop}
    (hpass : ∀ s, P s → P (followPass g.productions.all s).1)
    (hstart : P symbols) : P (followSets g.productions symbols).symbols :=
  FollowRun.run_preserves hpass hstart

theorem outline_followSets :
    outline (followSets g.productions symbols).symbols = outline symbols :=
  followSets_preserves (P := fun s => outline s = outline symbols)
    (fun _ h => outline_followPass.trans h) rfl

/-- Nullability and FIRST are left alone. -/
theorem factsOf_followSets :
    factsOf (followSets g.productions symbols).symbols = factsOf symbols :=
  followSets_preserves (P := fun s => factsOf s = factsOf symbols)
    (fun _ h => factsOf_followPass.trans h) rfl

include hout

theorem followSets_least {follow : Nat → Nat → Prop}
    (hc : FollowClosed g (factsOf symbols) follow)
    (hle : ∀ n t, t ∈ followAt symbols n → follow n t) :
    ∀ n t, t ∈ followAt (followSets g.productions symbols).symbols n →
      follow n t := by
  have hall := followSets_preserves (g := g)
    (P := fun s => outline s = outline g.symbols ∧
      factsOf s = factsOf symbols ∧ ∀ n t, t ∈ followAt s n → follow n t) ?_
    ⟨hout, rfl, hle⟩
  · exact hall.2.2
  · intro s hs
    obtain ⟨hs, hfacts, hfollow⟩ := hs
    refine ⟨outline_followPass.trans hs, factsOf_followPass.trans hfacts, ?_⟩
    refine follow_followPass_le (le_refl _) (covered_productionList hs) ?_ hfollow
    intro p hp
    rw [hfacts]
    exact hc p.owner p.right (right_mem_rightSides hp)

theorem bounded_start :
    Bounded g (followUniverse g.productions symbols) symbols := by
  have hat : ∀ {n t : Nat}, t ∈ firstAt symbols n ∨ t ∈ followAt symbols n →
      t ∈ followUniverse g.productions symbols := by
    intro n t ht
    refine TerminalSet.mem_foldl_union.mpr (Or.inr ?_)
    unfold firstAt followAt at ht
    cases hsymbol : symbolAt? symbols n with
    | none =>
        rw [hsymbol] at ht
        exact absurd ht (not_or.mpr
          ⟨TerminalSet.not_mem_empty, TerminalSet.not_mem_empty⟩)
    | some symbol =>
        rw [hsymbol] at ht
        exact ⟨symbol.first ∪ symbol.follow,
          List.mem_map.mpr ⟨symbol, mem_values_of_symbolAt hsymbol, rfl⟩,
          TerminalSet.mem_union.mpr ht⟩
  exact ⟨hout, ⟨fun _ => trivial, fun h => hat (Or.inl h)⟩,
    fun h => hat (Or.inr h)⟩

theorem followSets_closed :
    FollowClosed g (factsOf (followSets g.productions symbols).symbols)
      (followOfTable (followSets g.productions symbols).symbols) := by
  refine FollowRun.run_closed (followUniverse g.productions symbols)
    (fun mem _ ht => terminal_mem_universe mem ht) (bounded_start hout) ?_
  rw [followBudget, size_eq_of_outline hout]
  exact Nat.lt_succ_of_le missing_le

end Descent.Analysis
