import Descent.File.Header
import Descent.File.Rules
import Descent.Proofs.Analysis.SameTable
import Descent.Proofs.File.Line
import Descent.Proofs.Grammar.Fresh

/-!
# One text below the other

A section can be read in two parts. What the upper part defines keeps its place,
what only the lower part defines comes behind it, and for a name that both define
the two meanings are put together: the lower value replaces the upper one in a
header, and the lower expansions come behind the upper ones in the rules
(`parse_append`). Wherever the seam is, it does not matter, since a newline ends
whatever stands in front of it.

To put two tables together in this way is one operation (`Table.merge`). It goes
along with setting a key (`Table.upsert_merge`), so the items or rules of the
lower part may as well be collected on their own first.
-/

namespace Descent

/-! ## Tables put together -/

namespace Table

variable {κ α : Type} [DecidableEq κ] {f : α → α → α} {t u : Table κ α} {key : κ}

/-- The entries of two tables. A key of the first keeps its place, and if the second
has it too, `f` makes one value of both; the other keys of the second come behind
in their order. -/
def mergeEntries (f : α → α → α) (t u : Table κ α) : List (κ × α) :=
  t.entries.map (fun entry =>
      (entry.1, ((u.find? entry.1).map (f entry.2)).getD entry.2)) ++
    u.entries.filter fun entry => !t.contains entry.1

theorem map_fst_mergeEntries : (mergeEntries f t u).map Prod.fst =
    t.keys ++ u.keys.filter fun key => !t.contains key := by
  rw [mergeEntries, List.map_append, List.map_map, keys, keys, List.filter_map]
  rfl

theorem nodup_mergeEntries : ((mergeEntries f t u).map Prod.fst).Nodup := by
  rw [map_fst_mergeEntries]
  refine List.nodup_append.mpr ⟨t.nodup_keys, u.nodup_keys.filter _, ?_⟩
  rintro key hin _ hnew rfl
  have hnot := (List.mem_filter.mp hnew).2
  rw [contains_iff.mpr hin] at hnot
  cases hnot

/-- Two tables put together. -/
def merge (f : α → α → α) (t u : Table κ α) : Table κ α :=
  ⟨mergeEntries f t u, nodup_mergeEntries⟩

theorem keys_merge :
    (t.merge f u).keys = t.keys ++ u.keys.filter fun key => !t.contains key :=
  map_fst_mergeEntries

theorem lookup_filter_entries {es : List (κ × α)} {p : κ → Bool}
    (hkey : p key = true) :
    (es.filter fun entry => p entry.1).lookup key = es.lookup key := by
  induction es with
  | nil => rfl
  | cons entry es ih =>
      rw [List.filter_cons, lookup_cons]
      split
      · rw [lookup_cons, ih]
      · next hentry =>
          have hne : key ≠ entry.1 := by
            rintro rfl
            exact hentry hkey
          rw [ih, if_neg hne]

/-- A key of both tables has a value made of both. -/
theorem find?_merge : (t.merge f u).find? key =
    match t.find? key with
    | some a => some (((u.find? key).map (f a)).getD a)
    | none => u.find? key := by
  show (mergeEntries f t u).lookup key = _
  rw [mergeEntries, List.lookup_append,
    lookup_map_entries (f := fun key a => ((u.find? key).map (f a)).getD a)]
  cases hfind : t.find? key with
  | some a =>
      rw [show t.entries.lookup key = some a from hfind]
      rfl
  | none =>
      have hnot : t.contains key = false := by
        rw [← Bool.not_eq_true, contains_iff]
        exact find?_eq_none_iff.mp hfind
      rw [show t.entries.lookup key = none from hfind,
        lookup_filter_entries (p := fun key => !t.contains key) (by rw [hnot]; rfl)]
      rfl

/-- Tables with the same keys in the same order, and the same values under them, are
the same. -/
theorem ext_find? (hkeys : t.keys = u.keys)
    (hfind : ∀ key, t.find? key = u.find? key) : t = u := by
  refine Table.ext (List.ext_getElem? fun i => ?_)
  have hkey : t.keys[i]? = u.keys[i]? := by rw [hkeys]
  rw [keys, keys, List.getElem?_map, List.getElem?_map] at hkey
  cases hentry : t.entries[i]? with
  | none =>
      rw [hentry] at hkey
      exact (Option.map_eq_none_iff.mp hkey.symm).symm
  | some entry =>
      rw [hentry] at hkey
      obtain ⟨entry', hentry', heq⟩ := Option.map_eq_some_iff.mp hkey.symm
      have hleft := find?_eq_some_iff.mpr (List.mem_of_getElem? hentry)
      have hright := find?_eq_some_iff.mpr (List.mem_of_getElem? hentry')
      rw [heq, ← hfind, hleft] at hright
      rw [hentry', Prod.ext heq.symm (Option.some.inj hright)]

theorem merge_empty (t : Table κ α) : t.merge f ∅ = t :=
  ext_find? (by simp [keys_merge]) fun key => by
    rw [find?_merge]
    cases t.find? key <;> rfl

theorem keys_upsert_merge {g : Option α → α} :
    ((t.merge f u).upsert key g).keys = (t.merge f (u.upsert key g)).keys := by
  rw [keys_upsert, keys_merge, keys_merge, keys_upsert]
  by_cases hold : key ∈ t.keys
  · rw [if_pos (List.mem_append_left _ hold)]
    split
    · rfl
    · simp [List.filter_append, contains_iff.mpr hold]
  · have hnew : (!t.contains key) = true := by
      rw [Bool.not_eq_true', ← Bool.not_eq_true, contains_iff]
      exact hold
    by_cases hin : key ∈ u.keys
    · rw [if_pos hin, if_pos]
      exact List.mem_append_right _ (List.mem_filter.mpr ⟨hin, hnew⟩)
    · have hkey : [key].filter (fun key => !t.contains key) = [key] :=
        List.filter_cons_of_pos hnew
      rw [if_neg hin, if_neg, List.filter_append, hkey, List.append_assoc]
      rw [List.mem_append, not_or]
      exact ⟨hold, fun h => hin (List.mem_filter.mp h).1⟩

/-- Setting a key behind two tables put together is setting it in the second, as long
as a change of the second value is the same change of what is made of both. -/
theorem upsert_merge {g : Option α → α} (hnew : ∀ a, f a (g none) = g (some a))
    (hold : ∀ a b, f a (g (some b)) = g (some (f a b))) :
    (t.merge f u).upsert key g = t.merge f (u.upsert key g) := by
  refine ext_find? keys_upsert_merge fun k => ?_
  simp only [find?_upsert, find?_merge]
  by_cases heq : k = key
  · subst heq
    simp only [if_pos]
    cases t.find? k with
    | none => rfl
    | some a =>
        cases u.find? k with
        | none => simp [hnew]
        | some b => simp [hold]
  · simp only [if_neg heq]

end Table

/-! ## Headers -/

namespace Header

/-- One header below another: what both define has the lower value. -/
def below (upper lower : Header) : Header where
  terminals := upper.terminals.merge (fun _ value => value) lower.terminals
  options := upper.options.merge (fun _ value => value) lower.options

theorem insert_merge {t u : Table String String} {key value : String} :
    (t.merge (fun _ value => value) u).insert key value =
      t.merge (fun _ value => value) (u.insert key value) :=
  Table.upsert_merge (fun _ => rfl) fun _ _ => rfl

/-- Items are added to a header as the header that they make on their own. -/
theorem foldl_add_eq_below (h : Header) (items : List HeaderItem) :
    items.foldl add h = h.below (ofItems items) := by
  induction items using List.reverseRecOn with
  | nil =>
      rw [below, show (ofItems []).terminals = ∅ from rfl,
        show (ofItems []).options = ∅ from rfl, Table.merge_empty, Table.merge_empty]
      rfl
  | append_singleton items item ih =>
      have hlast : ofItems (items ++ [item]) = (ofItems items).add item :=
        List.foldl_concat ..
      rw [List.foldl_concat, ih, hlast]
      cases item with
      | terminal name value => simp only [add, below, insert_merge]
      | option key value => simp only [add, below, insert_merge]

end Header

/-! ## Symbols -/

namespace Symbol

/-- One symbol with the expansions of another behind its own. -/
def join (upper lower : Symbol) : Symbol :=
  { upper with
    expansions := upper.expansions ++ lower.expansions
    marked := upper.marked || lower.marked }

theorem join_addExpansion (s s' : Symbol) (expansion : Expansion) :
    s.join (s'.addExpansion expansion) = (s.join s').addExpansion expansion := by
  simp only [join, addExpansion, List.append_assoc, Bool.or_assoc]

theorem join_default (s : Symbol) : s.join {} = s := by
  simp only [join, List.append_nil, Bool.or_false]

theorem nullable_join {s s' : Symbol} (h : s.expansions ≠ [])
    (h' : s'.expansions ≠ []) :
    (s.join s').nullable = (s.nullable || s'.nullable) := by
  have hjoin : (s.join s').expansions ≠ [] := List.append_ne_nil_of_left_ne_nil h _
  rw [Analysis.nullable_eq_marked h, Analysis.nullable_eq_marked h',
    Analysis.nullable_eq_marked hjoin]
  rfl

theorem addTo_merge {t u : SymbolTable} {rule : Rule} :
    rule.addTo (t.merge join u) = t.merge join (rule.addTo u) := by
  refine Table.upsert_merge (fun s => ?_) fun s s' => join_addExpansion s s' _
  exact (join_addExpansion s {} _).trans
    (congrArg (·.addExpansion rule.expansion) (join_default s))

/-- Rules are added to a table as the table that they make on their own. -/
theorem foldl_addTo_eq_merge (symbols : SymbolTable) (rules : List Rule) :
    rules.foldl Rule.addTo symbols = symbols.merge join (tableOfRules rules) := by
  induction rules using List.reverseRecOn with
  | nil => exact (Table.merge_empty symbols).symm
  | append_singleton rules rule ih =>
      have hlast : tableOfRules (rules ++ [rule]) = rule.addTo (tableOfRules rules) :=
        List.foldl_concat ..
      rw [List.foldl_concat, ih, hlast]
      exact addTo_merge

theorem expansions_ne_nil_of_parseTable {text : String} {name : String} {s : Symbol}
    (h : (parseTable text).find? name = some s) : s.expansions ≠ [] := by
  refine Grammar.tableOfRules_preserves (P := fun s => s.expansions ≠ [])
    (fun expansion => expansions_addExpansion_ne_nil {} expansion)
    (fun s expansion _ => s.expansions_addExpansion_ne_nil expansion)
    (Rule.listOfText text) s ?_
  exact List.mem_map.mpr ⟨_, Table.find?_eq_some_iff.mp h, rfl⟩

end Symbol

/-! ## Sections in two parts -/

namespace File

theorem contentLines_append_text (a b : String) :
    contentLines (a ++ "\n" ++ b).toList =
      contentLines a.toList ++ contentLines b.toList := by
  rw [← contentLines_append]
  simp

theorem parse_header_append (a b : String) :
    Header.parse (a ++ "\n" ++ b) = (Header.parse a).below (Header.parse b) := by
  rw [Header.parse, HeaderItem.listOfText, contentLines_append_text, List.map_append,
    Header.ofItems, List.foldl_append, Header.foldl_add_eq_below]
  rfl

theorem parse_rules_append (a b : String) :
    Symbol.parseTable (a ++ "\n" ++ b) =
      (Symbol.parseTable a).merge Symbol.join (Symbol.parseTable b) := by
  rw [Symbol.parseTable, Rule.listOfText, contentLines_append_text, List.map_append,
    Symbol.tableOfRules, List.foldl_append, Symbol.foldl_addTo_eq_merge]
  rfl

/-- A symbol of two parts is nullable if it is so in one of the parts that it
occurs in. -/
theorem nullable_parse_append {a b name : String} {s : Symbol}
    (h : (Symbol.parseTable (a ++ "\n" ++ b)).find? name = some s) :
    s.nullable = (((Symbol.parseTable a).find? name).any Symbol.nullable ||
      ((Symbol.parseTable b).find? name).any Symbol.nullable) := by
  rw [parse_rules_append, Table.find?_merge] at h
  cases hupper : (Symbol.parseTable a).find? name with
  | none =>
      rw [hupper] at h
      rw [show (Symbol.parseTable b).find? name = some s from h]
      rfl
  | some upper =>
      rw [hupper] at h
      cases hlower : (Symbol.parseTable b).find? name with
      | none =>
          rw [hlower] at h
          rw [← Option.some.inj h]
          exact (Bool.or_false _).symm
      | some lower =>
          rw [hlower] at h
          rw [← Option.some.inj h]
          exact Symbol.nullable_join (Symbol.expansions_ne_nil_of_parseTable hupper)
            (Symbol.expansions_ne_nil_of_parseTable hlower)

/-- Of two texts with a newline between them, the header has the entries of the
first, with those of the second put in after them, and the rules have the symbols
of the first with the expansions of both, and then those that only the second
has. -/
theorem parse_append (a b : String) :
    (Header.parse (a ++ "\n" ++ b)).terminals =
        (Header.parse a).terminals.merge (fun _ value => value)
          (Header.parse b).terminals ∧
      (Header.parse (a ++ "\n" ++ b)).options =
        (Header.parse a).options.merge (fun _ value => value)
          (Header.parse b).options ∧
      Symbol.parseTable (a ++ "\n" ++ b) =
        (Symbol.parseTable a).merge Symbol.join (Symbol.parseTable b) ∧
      ∀ name s, (Symbol.parseTable (a ++ "\n" ++ b)).find? name = some s →
        s.nullable = (((Symbol.parseTable a).find? name).any Symbol.nullable ||
          ((Symbol.parseTable b).find? name).any Symbol.nullable) := by
  have hheader := parse_header_append a b
  exact ⟨congrArg Header.terminals hheader, congrArg Header.options hheader,
    parse_rules_append a b, fun _ _ => nullable_parse_append⟩

end File

end Descent
