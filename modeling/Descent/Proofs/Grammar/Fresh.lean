import Descent.File.Basic
import Descent.Grammar.Edit
import Descent.Proofs.Analysis.Productions

/-!
# Grammars that nothing has analyzed

A symbol is fresh as long as only expansions have been added to it: its sets
are empty, and it is marked just when one of its expansions is. Reading a file
yields fresh symbols, each with at least one expansion, so what the table of a
freshly read grammar says is derivable (`factsOf_le_derived`).

Putting a grammar together by hand yields fresh symbols as well (`Built.fresh`),
but there a symbol may have no expansion.
-/

namespace Descent

namespace Symbol

/-- What a symbol is before any analysis. -/
structure Fresh (s : Symbol) : Prop where
  first : s.first = ∅
  follow : s.follow = ∅
  marked : s.marked = true ↔ [] ∈ s.expansions

theorem fresh_default : ({} : Symbol).Fresh where
  first := rfl
  follow := rfl
  marked := iff_of_false Bool.false_ne_true List.not_mem_nil

theorem Fresh.addExpansion {s : Symbol} (h : s.Fresh) (expansion : Expansion) :
    (s.addExpansion expansion).Fresh where
  first := h.first
  follow := h.follow
  marked := by
    unfold Symbol.addExpansion
    rw [Bool.or_eq_true, List.mem_append, h.marked, List.mem_singleton,
      List.isEmpty_iff, eq_comm (a := expansion)]

theorem expansions_addExpansion_ne_nil (s : Symbol) (expansion : Expansion) :
    (s.addExpansion expansion).expansions ≠ [] := fun hnil =>
  List.cons_ne_nil _ _ (List.append_eq_nil_iff.mp hnil).2

end Symbol

namespace Grammar

/-- No symbol has been analyzed. -/
def Fresh (g : Grammar) : Prop := ∀ s ∈ g.symbols.values, s.Fresh

/-- Every symbol has an expansion. -/
def Expanded (g : Grammar) : Prop := ∀ s ∈ g.symbols.values, s.expansions ≠ []

/-! ## Reading -/

theorem addTo_preserves {P : Symbol → Prop} {symbols : SymbolTable} {rule : Rule}
    (hnew : P (({} : Symbol).addExpansion rule.expansion))
    (hold : ∀ s ∈ symbols.values, P s → P (s.addExpansion rule.expansion))
    (h : ∀ s ∈ symbols.values, P s) :
    ∀ s ∈ (rule.addTo symbols).values, P s := by
  intro s hs
  rcases Table.mem_values_upsert hs with hs | rfl | ⟨old, hmem, rfl⟩
  · exact h s hs
  · exact hnew
  · exact hold old hmem (h old hmem)

/-- Whatever adding an expansion brings about and keeps holds of all symbols of
a table of rules. -/
theorem tableOfRules_preserves {P : Symbol → Prop}
    (hnew : ∀ expansion, P (({} : Symbol).addExpansion expansion))
    (hold : ∀ s expansion, P s → P (s.addExpansion expansion))
    (rules : List Rule) : ∀ s ∈ (Symbol.tableOfRules rules).values, P s := by
  unfold Symbol.tableOfRules
  have hall : ∀ symbols : SymbolTable, (∀ s ∈ symbols.values, P s) →
      ∀ s ∈ (rules.foldl Rule.addTo symbols).values, P s := by
    induction rules with
    | nil => intro symbols h; exact h
    | cons rule rules ih =>
        intro symbols h
        exact ih _ (addTo_preserves (hnew _) (fun s _ => hold s _) h)
  exact hall ∅ fun s hs => absurd hs List.not_mem_nil

theorem parse_eq_ok {source : String} {g : Grammar}
    (h : Grammar.parse source = .ok g) :
    ∃ sections, Sections.split source = .ok sections ∧ g = ofSections sections := by
  unfold Grammar.parse at h
  cases hsplit : Sections.split source with
  | error e =>
      rw [hsplit] at h
      cases h
  | ok sections =>
      rw [hsplit] at h
      injection h with h
      exact ⟨sections, rfl, h.symm⟩

theorem fresh_of_parse {source : String} {g : Grammar}
    (h : Grammar.parse source = .ok g) : g.Fresh := by
  obtain ⟨sections, -, rfl⟩ := parse_eq_ok h
  exact tableOfRules_preserves
    (fun expansion => Symbol.fresh_default.addExpansion expansion)
    (fun _ expansion hs => hs.addExpansion expansion) _

theorem expanded_of_parse {source : String} {g : Grammar}
    (h : Grammar.parse source = .ok g) : g.Expanded := by
  obtain ⟨sections, -, rfl⟩ := parse_eq_ok h
  exact tableOfRules_preserves
    (fun expansion => Symbol.expansions_addExpansion_ne_nil {} expansion)
    (fun s expansion _ => s.expansions_addExpansion_ne_nil expansion) _

/-! ## Building by hand -/

/-- A grammar that was read or put together and that nothing has analyzed. -/
inductive Built : Grammar → Prop
  | empty : Built {}
  | parse {source : String} {g : Grammar}
      (h : Grammar.parse source = .ok g) : Built g
  | setTerminal {g : Grammar} (h : Built g) (name value : String) :
      Built (g.setTerminal name value)
  | setOption {g : Grammar} (h : Built g) (key value : String) :
      Built (g.setOption key value)
  | setUserCode {g : Grammar} (h : Built g) (text : String) :
      Built { g with userCode := text }
  | declare {g : Grammar} (h : Built g) (name : String) : Built (g.declare name)
  | addExpansion {g : Grammar} (h : Built g) (name : String)
      (expansion : Expansion) : Built (g.addExpansion name expansion)

theorem Fresh.declare {g : Grammar} (h : g.Fresh) (name : String) :
    (g.declare name).Fresh := by
  intro s hs
  rcases Table.mem_values_upsert hs with hs | rfl | ⟨old, hmem, heq⟩
  · exact h s hs
  · exact Symbol.fresh_default
  · exact heq ▸ h old hmem

/-- Adding an expansion by hand is adding a rule. -/
theorem addExpansion_preserves {P : Symbol → Prop} {g : Grammar} {name : String}
    {expansion : Expansion} (hnew : P (({} : Symbol).addExpansion expansion))
    (hold : ∀ s, P s → P (s.addExpansion expansion))
    (h : ∀ s ∈ g.symbols.values, P s) :
    ∀ s ∈ (g.addExpansion name expansion).symbols.values, P s := by
  have hrule : (g.addExpansion name expansion).symbols =
      Rule.addTo g.symbols ⟨name, expansion⟩ := rfl
  rw [hrule]
  exact addTo_preserves hnew (fun s _ => hold s) h

theorem Fresh.addExpansion {g : Grammar} (h : g.Fresh) (name : String)
    (expansion : Expansion) : (g.addExpansion name expansion).Fresh :=
  addExpansion_preserves (Symbol.fresh_default.addExpansion expansion)
    (fun _ hs => hs.addExpansion expansion) h

theorem Built.fresh {g : Grammar} (h : Built g) : g.Fresh := by
  induction h with
  | empty => exact fun s hs => absurd hs List.not_mem_nil
  | parse h => exact fresh_of_parse h
  | setTerminal _ _ _ ih => exact ih
  | setOption _ _ _ ih => exact ih
  | setUserCode _ _ ih => exact ih
  | declare _ name ih => exact ih.declare name
  | addExpansion _ name expansion ih => exact ih.addExpansion name expansion

/-! ## What a fresh table says -/

open Analysis

theorem Fresh.firstAt {g : Grammar} (h : g.Fresh) (n : Nat) :
    firstAt g.symbols n = ∅ := by
  unfold Analysis.firstAt
  cases hat : symbolAt? g.symbols n with
  | none => rfl
  | some symbol => exact (h symbol (mem_values_of_symbolAt hat)).first

theorem Fresh.followAt {g : Grammar} (h : g.Fresh) (n : Nat) :
    followAt g.symbols n = ∅ := by
  unfold Analysis.followAt
  cases hat : symbolAt? g.symbols n with
  | none => rfl
  | some symbol => exact (h symbol (mem_values_of_symbolAt hat)).follow

/-- All that a fresh table says is that symbols with no expansion or with an
empty one are nullable. -/
theorem Fresh.factsOf_le {g : Grammar} (h : g.Fresh) {f : FirstFacts}
    (hnull : ∀ n s, symbolAt? g.symbols n = some s →
      s.expansions = [] ∨ [] ∈ s.expansions → f.nullable n) :
    factsOf g.symbols ≤ f := by
  constructor
  · intro n hn
    have hn : nullableAt g.symbols n = true := hn
    unfold nullableAt at hn
    cases hat : symbolAt? g.symbols n with
    | none =>
        rw [hat] at hn
        cases hn
    | some s =>
        rw [hat] at hn
        refine hnull n s hat
          (((Bool.or_eq_true ..).mp hn).imp List.isEmpty_iff.mp ?_)
        exact (h s (mem_values_of_symbolAt hat)).marked.mp
  · intro n t ht
    have ht : t ∈ Analysis.firstAt g.symbols n := ht
    rw [h.firstAt] at ht
    exact absurd ht TerminalSet.not_mem_empty

/-- With an expansion for every symbol, only the empty ones are left. -/
theorem Fresh.factsOf_le_of_expanded {g : Grammar} (h : g.Fresh)
    (hexp : g.Expanded) {f : FirstFacts}
    (hnull : ∀ n s, symbolAt? g.symbols n = some s → [] ∈ s.expansions →
      f.nullable n) : factsOf g.symbols ≤ f :=
  h.factsOf_le fun n s hat hnil => hnull n s hat
    (hnil.resolve_left (hexp s (mem_values_of_symbolAt hat)))

theorem factsOf_le_derived {g : Grammar} (h : g.Fresh) (hexp : g.Expanded) :
    factsOf g.symbols ≤ derived g :=
  h.factsOf_le_of_expanded hexp fun _ s hat hnil =>
    .of_mem (mem_rightSides.mpr ⟨s, hat, [], hnil, rfl⟩)

end Grammar

end Descent
