import Descent.File.Header
import Descent.File.Rules
import Descent.Proofs.Grammar.Fresh

/-!
# Headers and symbols put together from their parts

Items with different keys make a header that lists them in their order, so a
header is made of its own entries (`ofItems_items`). In the same way a table of
symbols is made of the rules that its symbols stand for, symbol by symbol
(`tableOfRules_rules`). Only what an analysis has found is lost, since rules do
not say it.

The other way round, what a table holds has come from some item or rule
(`terminal_mem_of_ofItems`, `rule_mem_of_tableOfRules`).
-/

namespace Descent

/-! ## Headers -/

namespace Header

variable {h : Header} {parts : List HeaderItem}

/-- The items that define a header. -/
def items (h : Header) : List HeaderItem :=
  h.terminals.entries.map (fun entry => .terminal entry.1 entry.2) ++
    h.options.entries.map fun entry => .option entry.1 entry.2

theorem foldl_add_terminals (h : Header) (entries : List (String × String)) :
    (entries.map fun entry => HeaderItem.terminal entry.1 entry.2).foldl add h =
      { h with terminals := h.terminals.insertAll entries } := by
  induction entries generalizing h with
  | nil => rfl
  | cons entry entries ih =>
      rw [List.map_cons, List.foldl_cons, ih]
      rfl

theorem foldl_add_options (h : Header) (entries : List (String × String)) :
    (entries.map fun entry => HeaderItem.option entry.1 entry.2).foldl add h =
      { h with options := h.options.insertAll entries } := by
  induction entries generalizing h with
  | nil => rfl
  | cons entry entries ih =>
      rw [List.map_cons, List.foldl_cons, ih]
      rfl

theorem ofItems_items (h : Header) : ofItems h.items = h := by
  rw [ofItems, items, List.foldl_append, foldl_add_terminals, foldl_add_options]
  rw [Table.insertAll_entries, Table.insertAll_entries]

theorem terminal_mem_of_foldl {entry : String × String}
    (hentry : entry ∈ (parts.foldl add h).terminals.entries) :
    entry ∈ h.terminals.entries ∨ .terminal entry.1 entry.2 ∈ parts := by
  induction parts generalizing h with
  | nil => exact Or.inl hentry
  | cons item parts ih =>
      refine (ih hentry).elim (fun hentry => ?_) fun hitem =>
        Or.inr (List.mem_cons_of_mem _ hitem)
      cases item with
      | option key value => exact Or.inl hentry
      | terminal name value =>
          rcases Table.mem_entries_insert hentry with rfl | hold
          · exact Or.inr List.mem_cons_self
          · exact Or.inl hold

theorem option_mem_of_foldl {entry : String × String}
    (hentry : entry ∈ (parts.foldl add h).options.entries) :
    entry ∈ h.options.entries ∨ .option entry.1 entry.2 ∈ parts := by
  induction parts generalizing h with
  | nil => exact Or.inl hentry
  | cons item parts ih =>
      refine (ih hentry).elim (fun hentry => ?_) fun hitem =>
        Or.inr (List.mem_cons_of_mem _ hitem)
      cases item with
      | terminal name value => exact Or.inl hentry
      | option key value =>
          rcases Table.mem_entries_insert hentry with rfl | hold
          · exact Or.inr List.mem_cons_self
          · exact Or.inl hold

/-- A terminal of a header was an item. -/
theorem terminal_mem_of_ofItems {entry : String × String}
    (hentry : entry ∈ (ofItems parts).terminals.entries) :
    .terminal entry.1 entry.2 ∈ parts :=
  (terminal_mem_of_foldl hentry).resolve_left List.not_mem_nil

/-- An option of a header was an item. -/
theorem option_mem_of_ofItems {entry : String × String}
    (hentry : entry ∈ (ofItems parts).options.entries) :
    .option entry.1 entry.2 ∈ parts :=
  (option_mem_of_foldl hentry).resolve_left List.not_mem_nil

end Header

/-! ## Symbols -/

namespace Symbol

/-- The symbol as it was before any analysis. -/
def unanalyzed (s : Symbol) : Symbol where
  expansions := s.expansions
  marked := s.expansions.any List.isEmpty

/-- The rules that a symbol with a name stands for. -/
def rules (s : Symbol) (name : String) : List Rule :=
  s.expansions.map (Rule.mk name)

theorem foldl_addExpansion (s : Symbol) (expansions : List Expansion) :
    expansions.foldl addExpansion s =
      { s with
        expansions := s.expansions ++ expansions
        marked := s.marked || expansions.any List.isEmpty } := by
  induction expansions generalizing s with
  | nil => rw [List.foldl_nil, List.append_nil, List.any_nil, Bool.or_false]
  | cons expansion expansions ih =>
      rw [List.foldl_cons, ih, List.any_cons, ← Bool.or_assoc, List.append_cons]
      rfl

theorem unanalyzed_eq (s : Symbol) :
    s.unanalyzed = s.expansions.foldl addExpansion {} := by
  rw [foldl_addExpansion]
  rfl

theorem fresh_unanalyzed (s : Symbol) : s.unanalyzed.Fresh where
  first := rfl
  follow := rfl
  marked := by
    rw [unanalyzed, List.any_eq_true]
    refine ⟨fun ⟨expansion, hmem, hnil⟩ => ?_, fun hmem => ⟨[], hmem, rfl⟩⟩
    exact List.isEmpty_iff.mp hnil ▸ hmem

theorem Fresh.unanalyzed {s : Symbol} (h : s.Fresh) : s.unanalyzed = s := by
  have hmarked : s.unanalyzed.marked = s.marked :=
    Bool.eq_iff_iff.mpr ((fresh_unanalyzed s).marked.trans h.marked.symm)
  cases s
  rw [Symbol.unanalyzed, Symbol.mk.injEq]
  exact ⟨rfl, hmarked, h.first.symm, h.follow.symm⟩

/-- The rules of one symbol extend its entry at the end of a table. -/
theorem entries_foldl_rules {symbols : SymbolTable} {name : String}
    {entries : List (String × Symbol)} {s : Symbol}
    (h : symbols.entries = entries ++ [(name, s)])
    (hnew : name ∉ entries.map Prod.fst) (expansions : List Expansion) :
    ((expansions.map (Rule.mk name)).foldl Rule.addTo symbols).entries =
      entries ++ [(name, expansions.foldl addExpansion s)] := by
  induction expansions generalizing symbols s with
  | nil => exact h
  | cons expansion expansions ih =>
      refine ih ?_
      show Table.upsertEntries name _ symbols.entries = _
      rw [h]
      exact Table.upsertEntries_append hnew

/-- All the rules of a symbol put it at the end of a table that does not have
it. -/
theorem entries_foldl_rules_of_not_mem {symbols : SymbolTable} {name : String}
    (hnew : name ∉ symbols.keys) {s : Symbol} (hne : s.expansions ≠ []) :
    ((s.rules name).foldl Rule.addTo symbols).entries =
      symbols.entries ++ [(name, s.unanalyzed)] := by
  obtain ⟨expansion, expansions, heq⟩ := List.exists_cons_of_ne_nil hne
  have hfirst : (Rule.addTo symbols ⟨name, expansion⟩).entries =
      symbols.entries ++ [(name, ({} : Symbol).addExpansion expansion)] :=
    Table.upsertEntries_of_not_mem hnew
  rw [rules, unanalyzed_eq, heq]
  exact entries_foldl_rules hfirst hnew expansions

theorem entries_foldl_all {symbols : SymbolTable}
    {entries : List (String × Symbol)}
    (hnodup : ((symbols.entries ++ entries).map Prod.fst).Nodup)
    (hne : ∀ entry ∈ entries, entry.2.expansions ≠ []) :
    ((entries.flatMap fun entry => entry.2.rules entry.1).foldl Rule.addTo
        symbols).entries = symbols.entries ++
      entries.map fun entry => (entry.1, entry.2.unanalyzed) := by
  induction entries generalizing symbols with
  | nil => rw [List.map_nil, List.append_nil]; rfl
  | cons entry entries ih =>
      rw [List.append_cons] at hnodup
      have hnew : entry.1 ∉ symbols.keys := by
        rw [List.map_append, List.map_append, List.append_assoc,
          List.nodup_append] at hnodup
        exact fun hmem => hnodup.2.2 _ hmem _ List.mem_cons_self rfl
      have hentries := entries_foldl_rules_of_not_mem hnew
        (hne entry List.mem_cons_self)
      have hkeys : ((((entry.2.rules entry.1).foldl Rule.addTo
          symbols).entries ++ entries).map Prod.fst).Nodup := by
        rw [List.map_append, List.map_append] at hnodup
        rw [hentries, List.map_append, List.map_append]
        exact hnodup
      rw [List.flatMap_cons, List.foldl_append, ih hkeys fun other hother =>
        hne other (List.mem_cons_of_mem _ hother), hentries, List.map_cons,
        List.append_assoc, List.singleton_append]

/-- A table whose symbols all have an expansion is made of their rules, but for
what an analysis has found. -/
theorem tableOfRules_rules {symbols : SymbolTable}
    (hne : ∀ entry ∈ symbols.entries, entry.2.expansions ≠ []) :
    tableOfRules (symbols.entries.flatMap fun entry => entry.2.rules entry.1) =
      symbols.map unanalyzed :=
  Table.ext (entries_foldl_all symbols.nodup hne)

theorem rule_mem_of_foldl {symbols : SymbolTable} {rules : List Rule}
    {name : String} {s : Symbol} {expansion : Expansion}
    (hentry : (name, s) ∈ (rules.foldl Rule.addTo symbols).entries)
    (hmem : expansion ∈ s.expansions) :
    (∃ old, (name, old) ∈ symbols.entries ∧ expansion ∈ old.expansions) ∨
      ⟨name, expansion⟩ ∈ rules := by
  induction rules generalizing symbols with
  | nil => exact Or.inl ⟨s, hentry, hmem⟩
  | cons rule rules ih =>
      rcases ih hentry with ⟨old, hold, hin⟩ | hrule
      · have hupsert := Table.mem_entries_upsert.mp hold
        split at hupsert
        · next heq =>
            subst heq hupsert
            rcases List.mem_append.mp hin with hin | hin
            · cases hfind : symbols.find? rule.name with
              | none =>
                  rw [hfind] at hin
                  cases hin
              | some before =>
                  rw [hfind] at hin
                  exact Or.inl ⟨before, Table.find?_eq_some_iff.mp hfind, hin⟩
            · rw [List.mem_singleton] at hin
              subst hin
              exact Or.inr List.mem_cons_self
        · exact Or.inl ⟨old, hupsert, hin⟩
      · exact Or.inr (List.mem_cons_of_mem _ hrule)

/-- An expansion of a table's symbol was a rule. -/
theorem rule_mem_of_tableOfRules {rules : List Rule} {name : String}
    {s : Symbol} {expansion : Expansion}
    (hentry : (name, s) ∈ (tableOfRules rules).entries)
    (hmem : expansion ∈ s.expansions) : ⟨name, expansion⟩ ∈ rules := by
  refine (rule_mem_of_foldl hentry hmem).resolve_left ?_
  rintro ⟨_, hold, -⟩
  cases hold

end Symbol

end Descent
