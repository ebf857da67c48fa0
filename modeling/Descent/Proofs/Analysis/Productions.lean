import Descent.Analysis.Production
import Descent.Proofs.Analysis.State

/-!
# Productions and right sides

The analysis works on a list of productions, while the meaning of a grammar is
given by its right sides. They are the same thing in two orders
(`mem_rightSides_iff`), and both depend on the header and the outline of the
symbols alone, so they are still the same after an analysis.

The index of users is exact: it lists, in declaration order and once each, the
productions that mention a symbol (`users_eq_filter`). That nothing is missing
from it is what the work queue rests on.
-/

namespace Descent

/-! ## Numbered lists -/

theorem map_zipIdx_fst {α β : Type} (l : List α) (f : α → β) :
    (l.zipIdx.map fun entry => f entry.1) = l.map f := by
  have hmap : (l.zipIdx.map fun entry => f entry.1) = (l.zipIdx.map Prod.fst).map f :=
    List.map_map.symm
  rw [hmap, List.zipIdx_map_fst]

theorem pairwise_zipIdx_snd {α : Type} (l : List α) :
    (l.zipIdx.map Prod.snd).Pairwise (· < ·) := by
  rw [List.zipIdx_map_snd]
  exact List.pairwise_lt_range'

namespace Grammar

variable {g : Grammar}

/-! ## What a name stands for -/

theorem resolve_eq_some_terminal_iff {name : String} {id : Nat} :
    g.resolve name = some (.terminal id) ↔
      g.header.terminalId? name = some id := by
  rw [resolve]
  cases g.header.terminalId? name <;> simp

theorem resolve_eq_some_nonterminal_iff {name : String} {n : Nat} :
    g.resolve name = some (.nonterminal n) ↔
      name ∉ g.header.terminals.keys ∧ g.symbols.position? name = some n := by
  rw [← Table.position?_eq_none_iff, resolve, Header.terminalId?]
  cases g.header.terminals.position? name <;> simp

theorem resolve_eq_none_iff {name : String} :
    g.resolve name = none ↔
      name ∉ g.header.terminals.keys ∧ name ∉ g.symbols.keys := by
  rw [← Table.position?_eq_none_iff, ← Table.position?_eq_none_iff, resolve,
    Header.terminalId?]
  cases g.header.terminals.position? name <;> simp

/-- Where every name stands for something, resolving loses none. -/
theorem map_resolve_eq {names : List String}
    (h : ∀ name ∈ names, (g.resolve name).isSome = true) :
    names.map g.resolve = (names.filterMap g.resolve).map some := by
  induction names with
  | nil => rfl
  | cons name names ih =>
      obtain ⟨token, htoken⟩ :=
        Option.isSome_iff_exists.mp (h name List.mem_cons_self)
      rw [List.map_cons, List.filterMap_cons_some htoken, List.map_cons, htoken,
        ih fun other hother => h other (List.mem_cons_of_mem _ hother)]

theorem position?_inj {name name' : String} {n : Nat}
    (h : g.symbols.position? name = some n)
    (h' : g.symbols.position? name' = some n) : name = name' := by
  obtain ⟨s, hs⟩ := Table.position?_eq_some_iff.mp h
  obtain ⟨s', hs'⟩ := Table.position?_eq_some_iff.mp h'
  rw [hs] at hs'
  injection hs' with heq
  exact congrArg Prod.fst heq

theorem exists_position?_of_mem {name : String} (h : name ∈ g.symbols.keys) :
    ∃ n, g.symbols.position? name = some n :=
  Option.ne_none_iff_exists'.mp fun hnone =>
    Table.position?_eq_none_iff.mp hnone h

theorem lt_of_resolve_nonterminal {name : String} {n : Nat}
    (h : g.resolve name = some (.nonterminal n)) : n < g.symbols.size := by
  unfold resolve at h
  split at h
  · cases h
  · obtain ⟨i, hi, heq⟩ := Option.map_eq_some_iff.mp h
    injection heq with heq
    exact heq ▸ Table.lt_size_of_position? hi

theorem lt_of_resolve_terminal {name : String} {t : Nat}
    (h : g.resolve name = some (.terminal t)) :
    t < g.header.terminals.size := by
  unfold resolve at h
  split at h
  · next id hid =>
      injection h with h
      injection h with h
      exact h ▸ Table.lt_size_of_position? hid
  · obtain ⟨i, _, heq⟩ := Option.map_eq_some_iff.mp h
    cases heq

theorem find?_of_position? {name : String} {n : Nat}
    (h : g.symbols.position? name = some n) :
    ∃ symbol, g.symbols.find? name = some symbol ∧
      Analysis.symbolAt? g.symbols n = some symbol := by
  obtain ⟨symbol, hat⟩ := Table.position?_eq_some_iff.mp h
  refine ⟨symbol, Table.find?_eq_some_iff.mpr (List.mem_of_getElem? hat), ?_⟩
  rw [Analysis.symbolAt?, hat, Option.map_some]

theorem position?_of_find? {name : String} {symbol : Symbol}
    (h : g.symbols.find? name = some symbol) :
    ∃ n, g.symbols.position? name = some n ∧
      Analysis.symbolAt? g.symbols n = some symbol := by
  obtain ⟨n, hat⟩ := List.getElem?_of_mem (Table.find?_eq_some_iff.mp h)
  refine ⟨n, Table.position?_eq_some_iff.mpr ⟨symbol, hat⟩, ?_⟩
  rw [Analysis.symbolAt?, Table.at?, hat, Option.map_some]

theorem exists_position?_of_symbolAt {n : Nat} {symbol : Symbol}
    (h : Analysis.symbolAt? g.symbols n = some symbol) :
    ∃ name, g.symbols.position? name = some n ∧
      g.symbols.find? name = some symbol := by
  obtain ⟨entry, hat, rfl⟩ := Option.map_eq_some_iff.mp h
  exact ⟨entry.1, Table.position?_eq_some_iff.mpr ⟨entry.2, hat⟩,
    Table.find?_eq_some_iff.mpr (List.mem_of_getElem? hat)⟩

theorem keys_eq_map_outline (symbols : SymbolTable) :
    symbols.keys = (Analysis.outline symbols).map Prod.fst := by
  rw [Analysis.outline, List.map_map]
  rfl

/-! ## Right sides -/

theorem mem_rightSides {n : Nat} {right : List Token} :
    right ∈ g.rightSides n ↔
      ∃ symbol, Analysis.symbolAt? g.symbols n = some symbol ∧
        ∃ expansion ∈ symbol.expansions, expansion.filterMap g.resolve = right := by
  unfold rightSides Analysis.symbolAt?
  cases g.symbols.at? n with
  | none => simp
  | some entry => simp

theorem exists_resolve_of_mem {n : Nat} {right : List Token} {token : Token}
    (mem : right ∈ g.rightSides n) (htoken : token ∈ right) :
    ∃ name, g.resolve name = some token := by
  obtain ⟨symbol, _, expansion, _, rfl⟩ := mem_rightSides.mp mem
  obtain ⟨name, _, hname⟩ := List.mem_filterMap.mp htoken
  exact ⟨name, hname⟩

theorem mentions_of_mem {n : Nat} {right : List Token}
    (mem : right ∈ g.rightSides n) : Analysis.Mentions g.symbols right := by
  intro m hm
  obtain ⟨name, hname⟩ := exists_resolve_of_mem mem hm
  exact lt_of_resolve_nonterminal hname

theorem terminal_lt_of_mem {n t : Nat} {right : List Token}
    (mem : right ∈ g.rightSides n) (ht : .terminal t ∈ right) :
    t < g.header.terminals.size := by
  obtain ⟨name, hname⟩ := exists_resolve_of_mem mem ht
  exact lt_of_resolve_terminal hname

theorem rightSides_eq {n : Nat} :
    g.rightSides n = ((Analysis.outline g.symbols)[n]?.map fun entry =>
      entry.2.map fun expansion => expansion.filterMap g.resolve).getD [] := by
  unfold rightSides Analysis.outline Table.at?
  rw [List.getElem?_map]
  cases g.symbols.entries[n]? <;> rfl

/-- Names stand for positions, so it does not matter what is there. -/
theorem resolve_of_keys {g' : Grammar} (hheader : g'.header = g.header)
    (hkeys : g'.symbols.keys = g.symbols.keys) : g'.resolve = g.resolve := by
  funext name
  unfold resolve Table.position?
  rw [hheader, hkeys]

section Outline

variable {g' : Grammar}
  (hterminals : g'.header.terminals = g.header.terminals)
  (hout : Analysis.outline g'.symbols = Analysis.outline g.symbols)

include hterminals hout

theorem resolve_congr : g'.resolve = g.resolve := by
  funext name
  unfold resolve Header.terminalId? Table.position?
  rw [hterminals, keys_eq_map_outline, keys_eq_map_outline, hout]

theorem rightSides_congr : g'.rightSides = g.rightSides := by
  funext n
  rw [rightSides_eq, rightSides_eq, hout, resolve_congr hterminals hout]

end Outline

/-! ## The list of productions -/

theorem mem_productionList {p : Production} :
    p ∈ g.productionList ↔
      ∃ symbol, Analysis.symbolAt? g.symbols p.owner = some symbol ∧
        ∃ expansion, symbol.expansions[p.index]? = some expansion ∧
          expansion.filterMap g.resolve = p.right := by
  unfold productionList productionsOf Table.values
  simp only [List.mem_flatMap, List.mem_map, Prod.exists,
    List.mk_mem_zipIdx_iff_getElem?]
  constructor
  · rintro ⟨symbol, n, hsymbol, expansion, i, hexpansion, rfl⟩
    rw [List.getElem?_map] at hsymbol
    exact ⟨symbol, hsymbol, expansion, hexpansion, rfl⟩
  · rintro ⟨symbol, hsymbol, expansion, hexpansion, hright⟩
    refine ⟨symbol, p.owner, ?_, expansion, p.index, hexpansion, ?_⟩
    · rw [List.getElem?_map]
      exact hsymbol
    · rw [hright]

/-- A right side of a symbol is the right side of one of its productions. -/
theorem mem_rightSides_iff {n : Nat} {right : List Token} :
    right ∈ g.rightSides n ↔
      ∃ p ∈ g.productionList, p.owner = n ∧ p.right = right := by
  rw [mem_rightSides]
  constructor
  · rintro ⟨symbol, hsymbol, expansion, hexpansion, hright⟩
    obtain ⟨i, hi⟩ := List.getElem?_of_mem hexpansion
    exact ⟨⟨n, i, right⟩,
      mem_productionList.mpr ⟨symbol, hsymbol, expansion, hi, hright⟩, rfl, rfl⟩
  · rintro ⟨p, hp, rfl, rfl⟩
    obtain ⟨symbol, hsymbol, expansion, hexpansion, hright⟩ :=
      mem_productionList.mp hp
    exact ⟨symbol, hsymbol, expansion, List.mem_of_getElem? hexpansion, hright⟩

theorem right_mem_rightSides {p : Production} (hp : p ∈ g.productionList) :
    p.right ∈ g.rightSides p.owner :=
  mem_rightSides_iff.mpr ⟨p, hp, rfl, rfl⟩

theorem owner_lt {p : Production} (hp : p ∈ g.productionList) :
    p.owner < g.symbols.size :=
  Analysis.lt_size_of_mem_rightSides (right_mem_rightSides hp)

end Grammar

/-! ## The index of users -/

theorem nodup_eraseDups : ∀ l : List Nat, l.eraseDups.Nodup
  | [] => by simp
  | a :: l => by
      rw [List.eraseDups_cons, List.nodup_cons]
      refine ⟨fun h => ?_, nodup_eraseDups _⟩
      rw [List.mem_eraseDups, List.mem_filter] at h
      simp at h
termination_by l => l.length
decreasing_by exact Nat.lt_succ_of_le (List.length_filter_le ..)

namespace Production

variable {p : Production}

theorem mem_mentioned {n : Nat} :
    n ∈ p.mentioned ↔ .nonterminal n ∈ p.right := by
  unfold mentioned
  rw [List.mem_eraseDups, List.mem_filterMap]
  constructor
  · rintro ⟨token, htoken, hn⟩
    cases token with
    | terminal id => cases hn
    | nonterminal m =>
        injection hn with hn
        exact hn ▸ htoken
  · intro h
    exact ⟨.nonterminal n, h, rfl⟩

end Production

namespace Productions

theorem getElem?_foldl_modify {p : Production} {n : Nat} :
    ∀ {positions : List Nat} {index : List (List Production)},
      positions.Nodup →
      (positions.foldl (fun index m => index.modify m (p :: ·)) index)[n]? =
        index[n]?.map fun users => if n ∈ positions then p :: users else users := by
  intro positions
  induction positions with
  | nil => intro index _; simp
  | cons m positions ih =>
      intro index hnodup
      obtain ⟨hm, hnodup⟩ := List.nodup_cons.mp hnodup
      rw [List.foldl_cons, ih hnodup, List.getElem?_modify,
        Option.map_eq_map, Option.map_map]
      refine congrArg (fun f => index[n]?.map f) (funext fun users => ?_)
      by_cases heq : m = n
      · subst heq
        simp [hm]
      · have hne : n ≠ m := fun h => heq h.symm
        simp [heq, hne]

theorem getElem?_addToIndex {p : Production} {n : Nat}
    {index : List (List Production)} :
    (addToIndex p index)[n]? =
      index[n]?.map fun users =>
        if .nonterminal n ∈ p.right then p :: users else users := by
  have hnodup : p.mentioned.Nodup := nodup_eraseDups _
  rw [addToIndex, getElem?_foldl_modify hnodup]
  simp only [Production.mem_mentioned]

theorem getElem?_index {symbolCount n : Nat} {all : List Production}
    (hn : n < symbolCount) :
    (all.foldr addToIndex (List.replicate symbolCount []))[n]? =
      some (all.filter fun p => .nonterminal n ∈ p.right) := by
  induction all with
  | nil => simp [hn]
  | cons p all ih =>
      rw [List.foldr_cons, getElem?_addToIndex, ih, Option.map_some,
        List.filter_cons]
      simp only [decide_eq_true_eq]

/-- The users of a symbol are the productions that mention it, in order. -/
theorem users_eq_filter {symbolCount n : Nat} {all : List Production}
    (hn : n < symbolCount) :
    (ofList symbolCount all).users n =
      all.filter fun p => .nonterminal n ∈ p.right := by
  rw [users, ofList, getElem?_index hn, Option.getD_some]

theorem length_userIndex {symbolCount : Nat} {all : List Production} :
    (ofList symbolCount all).userIndex.length = symbolCount := by
  have hadd : ∀ (positions : List Nat) (p : Production)
      (index : List (List Production)),
      (positions.foldl (fun index m => index.modify m (p :: ·)) index).length =
        index.length := by
    intro positions p
    induction positions with
    | nil => intro index; rfl
    | cons m positions ih =>
        intro index
        rw [List.foldl_cons, ih, List.length_modify]
  unfold ofList
  induction all with
  | nil => exact List.length_replicate
  | cons p all ih =>
      rw [List.foldr_cons]
      exact (hadd p.mentioned p _).trans ih

end Productions

end Descent
