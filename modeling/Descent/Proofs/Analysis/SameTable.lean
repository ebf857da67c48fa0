import Descent.Proofs.Analysis.Productions

/-!
# When a table stays the same

The facts and the FOLLOW sets of a table do not determine it: a symbol without
any expansion is nullable whether it is marked or not. Only a symbol that has an
expansion can be marked by an update, however, and for such symbols the mark and
nullability are the same thing.

So an update that adds no fact leaves the table as it is, and not merely what
the table says (`updateFirst_eq_self_iff`, `updateFollow_eq_self_iff`). And two
tables with the same outline that say the same are the same table if every
symbol has an expansion (`eq_of_facts`).
-/

namespace Descent.Analysis

open FirstFacts Grammar

variable {g : Grammar} {mode : Mode} {symbols : SymbolTable} {p : Production}

theorem changeAt_eq_self {n : Nat} {symbol : Symbol}
    {change : Symbol → Symbol × Bool} (hat : symbolAt? symbols n = some symbol)
    (h : (change symbol).1 = symbol) : (changeAt symbols n change).1 = symbols := by
  show symbols.modifyAt n (fun symbol => (change symbol).1) = symbols
  refine Table.modifyAt_eq_self fun entry hentry => ?_
  rw [symbolAt?, hentry, Option.map_some] at hat
  injection hat with hat
  rw [hat, h]

/-! ## The update of FIRST -/

/-- A production that would not change its owner. -/
structure Stable (mode : Mode) (f : FirstFacts) (p : Production) : Prop where
  nullable (h : f.Vanishes p.right) : f.nullable p.owner
  first {t : Nat} (h : f.Begins mode p.right t) : f.first p.owner t

theorem nullable_eq_marked {symbol : Symbol} (hexp : symbol.expansions ≠ []) :
    symbol.nullable = symbol.marked := by
  rw [Symbol.nullable, List.isEmpty_eq_false_iff.mpr hexp, Bool.false_or]

theorem absorb_eq_self {first : TerminalSet} {nullable : Bool} {symbol : Symbol}
    (hexp : symbol.expansions ≠ []) (hfirst : ∀ t ∈ first, t ∈ symbol.first)
    (hnull : nullable = true → symbol.nullable = true) :
    (absorb first nullable symbol).1 = symbol := by
  unfold absorb Symbol.addFirst
  rw [TerminalSet.addAll_eq_self hfirst]
  cases nullable with
  | false => rfl
  | true =>
      have hmarked : symbol.marked = true := by
        rw [← nullable_eq_marked hexp, hnull rfl]
      show { symbol with marked := true } = symbol
      rw [← hmarked]

theorem exists_owner (hout : outline symbols = outline g.symbols)
    (hp : p ∈ g.productionList) :
    ∃ symbol, symbolAt? symbols p.owner = some symbol ∧
      symbol.expansions ≠ [] := by
  obtain ⟨symbol, hat, expansion, hexp, -⟩ := mem_productionList.mp hp
  obtain ⟨symbol', hat', heq⟩ := expansions_of_outline hout hat
  refine ⟨symbol', hat', fun hnil => ?_⟩
  rw [← heq, hnil] at hexp
  cases hexp

theorem owner_lt_of_outline (hout : outline symbols = outline g.symbols)
    (hp : p ∈ g.productionList) : p.owner < symbols.size := by
  rw [size_eq_of_outline hout]
  exact owner_lt hp

/-- An update of FIRST changes nothing exactly if its production is stable. -/
theorem updateFirst_eq_self_iff (hout : outline symbols = outline g.symbols)
    (hp : p ∈ g.productionList) :
    (updateFirst mode symbols p).1 = symbols ↔
      Stable mode (factsOf symbols) p := by
  obtain ⟨symbol, hat, hexp⟩ := exists_owner hout hp
  have hown := owner_lt_of_outline hout hp
  constructor
  · intro h
    constructor
    · intro hv
      have hnew : (factsOf (updateFirst mode symbols p).1).nullable p.owner :=
        (nullable_updateFirst hown).mpr (Or.inr ⟨rfl, hv⟩)
      rwa [h] at hnew
    · intro t ht
      have hnew := (first_updateFirst hown).mpr (Or.inr ⟨rfl, ht⟩)
      rwa [h] at hnew
  · intro h
    refine changeAt_eq_self hat (absorb_eq_self hexp ?_ ?_)
    · intro t ht
      have hin : t ∈ firstAt symbols p.owner := h.first (mem_sequenceFirst.mp ht)
      rwa [firstAt_of_symbolAt hat] at hin
    · intro hnull
      have hin : nullableAt symbols p.owner = true :=
        h.nullable (sequenceNullable_iff.mp hnull)
      rwa [nullableAt, hat] at hin

/-- The flag of an update of FIRST is down exactly if its production is stable. -/
theorem updateFirst_snd_eq_false_iff (hown : p.owner < symbols.size) :
    (updateFirst mode symbols p).2 = false ↔ Stable mode (factsOf symbols) p := by
  rw [← Bool.not_eq_true, updateFirst_snd_iff hown]
  constructor
  · intro h
    constructor
    · intro hv
      exact Classical.byContradiction fun hnot => h (Or.inr ⟨hv, hnot⟩)
    · intro t ht
      exact Classical.byContradiction fun hnot => h (Or.inl ⟨t, ht, hnot⟩)
  · rintro h (⟨t, ht, hnot⟩ | ⟨hv, hnot⟩)
    · exact hnot (h.first ht)
    · exact hnot (h.nullable hv)

/-! ## The update of FOLLOW -/

variable {owner : Nat} {tokens : List Token}

theorem updateFollow_eq_self (hmen : Mentions symbols tokens)
    (h : FollowFits (factsOf symbols) (followOfTable symbols)
      (followOfTable symbols owner) tokens) :
    (updateFollow owner symbols tokens).1 = symbols := by
  induction tokens with
  | nil => rfl
  | cons token rest ih =>
      cases token with
      | terminal id => exact ih hmen.tail h
      | nonterminal n =>
          obtain ⟨symbol, hat⟩ := exists_symbolAt (hmen n List.mem_cons_self)
          have hin : ∀ t ∈ followOf symbols owner rest, t ∈ symbol.follow := by
            intro t ht
            rw [← followAt_of_symbolAt hat]
            exact h.1 t (mem_followOf.mp ht)
          have hhere : (changeAt symbols n fun symbol =>
              symbol.addFollow (followOf symbols owner rest)).1 = symbols := by
            refine changeAt_eq_self hat ?_
            rw [Symbol.addFollow, TerminalSet.addAll_eq_self hin]
          rw [updateFollow, hhere]
          exact ih hmen.tail h.2

/-- An update of FOLLOW changes nothing exactly if every place of its right side
is satisfied. -/
theorem updateFollow_eq_self_iff (hmen : Mentions symbols tokens) :
    (updateFollow owner symbols tokens).1 = symbols ↔
      FollowFits (factsOf symbols) (followOfTable symbols)
        (followOfTable symbols owner) tokens := by
  refine ⟨fun h => ?_, updateFollow_eq_self hmen⟩
  cases hflag : (updateFollow owner symbols tokens).2 with
  | false => exact updateFollow_of_snd_eq_false hmen hflag
  | true =>
      obtain ⟨n, t, -, ht, hnot⟩ := updateFollow_of_snd_eq_true hflag
      rw [h] at ht
      exact absurd ht hnot

/-! ## Equal tables -/

/-- Two symbols with an expansion are the same if what is known of them is. -/
theorem symbol_ext {s s' : Symbol} (hsame : s'.expansions = s.expansions)
    (hexp : s.expansions ≠ []) (hnull : s'.nullable = s.nullable)
    (hfirst : s'.first = s.first) (hfollow : s'.follow = s.follow) : s' = s := by
  rw [nullable_eq_marked hexp, nullable_eq_marked (hsame ▸ hexp)] at hnull
  cases s'
  cases s
  simp only [Symbol.mk.injEq]
  exact ⟨hsame, hnull, hfirst, hfollow⟩

theorem symbol_eq_of_facts {symbols' : SymbolTable} {n : Nat} {s s' : Symbol}
    (hat : symbolAt? symbols n = some s) (hat' : symbolAt? symbols' n = some s')
    (hsame : s'.expansions = s.expansions) (hexp : s.expansions ≠ [])
    (hfacts : factsOf symbols' = factsOf symbols)
    (hfollow : followAt symbols' = followAt symbols) : s' = s := by
  refine symbol_ext hsame hexp ?_ ?_ ?_
  · have hnull := nullableAt_eq_of_facts hfacts n
    rwa [nullableAt, nullableAt, hat, hat'] at hnull
  · rw [← firstAt_of_symbolAt hat, ← firstAt_of_symbolAt hat',
      firstAt_eq_of_facts hfacts]
  · rw [← followAt_of_symbolAt hat, ← followAt_of_symbolAt hat', hfollow]

/-- Tables that say the same about the same symbols are equal, provided that
every symbol has an expansion. -/
theorem eq_of_facts {symbols' : SymbolTable}
    (hout : outline symbols' = outline symbols)
    (hexp : ∀ s ∈ symbols.values, s.expansions ≠ [])
    (hfacts : factsOf symbols' = factsOf symbols)
    (hfollow : followAt symbols' = followAt symbols) : symbols' = symbols := by
  refine Table.ext (List.ext_getElem? fun n => ?_)
  have hline := congrArg (fun lines => lines[n]?) hout
  simp only [outline, List.getElem?_map] at hline
  cases hentry : symbols.entries[n]? with
  | none =>
      rw [hentry] at hline
      exact Option.map_eq_none_iff.mp hline
  | some entry =>
      rw [hentry] at hline
      obtain ⟨entry', hentry', heq⟩ := Option.map_eq_some_iff.mp hline
      injection heq with hname hsame
      have hat : symbolAt? symbols n = some entry.2 :=
        Option.map_eq_some_iff.mpr ⟨entry, hentry, rfl⟩
      have hat' : symbolAt? symbols' n = some entry'.2 :=
        Option.map_eq_some_iff.mpr ⟨entry', hentry', rfl⟩
      have hsymbol := symbol_eq_of_facts hat hat' hsame
        (hexp _ (mem_values_of_symbolAt hat)) hfacts hfollow
      rw [hentry', Prod.ext hname hsymbol]

end Descent.Analysis
