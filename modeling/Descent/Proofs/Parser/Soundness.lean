import Descent.File.Basic
import Descent.Proofs.Grammar.Derivation
import Descent.Proofs.Parser.Build
import Descent.Proofs.Parser.Selection

/-!
# What is read is derived

When a routine succeeds, the values that it has consumed are those of a word
that its symbol derives. This holds of every parser that is built, whatever the
predictions are: a routine takes the steps of one of its symbol's expansions or
succeeds on an empty one, and which of them it takes does not matter here.

The induction is on the depth of calls, and inside it on the names of an
expansion. What both carry is `Consumes`: between two lists of values lies a
word of a form.
-/

namespace Descent

namespace Grammar

variable {g : Grammar} {values middle rest : List String}

/-- Between two lists of values lies what the lexer emits for a word of a
form. -/
def Consumes (g : Grammar) (form : List Token) (values rest : List String) :
    Prop :=
  ∃ consumed word, values = consumed ++ rest ∧ g.header.Emits word consumed ∧
    g.Derives form (word.map .terminal)

theorem consumes_nil : g.Consumes [] values values :=
  ⟨[], [], rfl, Header.emits_nil, .refl _⟩

theorem consumes_terminal {t : Nat} {value : String}
    (hvalue : g.header.value? t = some value) :
    g.Consumes [.terminal t] (value :: values) values :=
  ⟨[value], [t], rfl, Header.emits_nil.cons hvalue, .refl _⟩

theorem Consumes.append {form form' : List Token}
    (h : g.Consumes form values middle) (h' : g.Consumes form' middle rest) :
    g.Consumes (form ++ form') values rest := by
  obtain ⟨front, word, rfl, hemits, hd⟩ := h
  obtain ⟨back, word', rfl, hemits', hd'⟩ := h'
  refine ⟨front ++ back, word ++ word', (List.append_assoc ..).symm,
    hemits.append hemits', ?_⟩
  rw [List.map_append]
  exact hd.append hd'

theorem Consumes.of_mem {n : Nat} {right : List Token}
    (mem : right ∈ g.rightSides n) (h : g.Consumes right values rest) :
    g.Consumes [.nonterminal n] values rest := by
  obtain ⟨consumed, word, heq, hemits, hd⟩ := h
  exact ⟨consumed, word, heq, hemits, (Derives.of_mem mem).trans hd⟩

/-! ## Steps -/

/-- A way of reading symbols accepts nothing but what they derive. -/
def CallsAreSound (g : Grammar) (call : String → List String → Reading) : Prop :=
  ∀ name values rest, call name values = .accepted rest →
    ∃ n, g.symbols.position? name = some n ∧
      g.Consumes [.nonterminal n] values rest

variable {call : String → List String → Reading}

theorem consumes_of_read (hcall : g.CallsAreSound call) {names : Expansion}
    {index slot : Nat}
    (h : Step.read call (g.steps index slot names) values = .accepted rest) :
    g.Consumes (names.filterMap g.resolve) values rest := by
  induction names generalizing index slot values with
  | nil =>
      injection h with h
      exact h ▸ consumes_nil
  | cons name names ih =>
      cases hname : g.resolve name with
      | none =>
          rw [steps_of_unresolved hname] at h
          rw [List.filterMap_cons_none hname]
          exact ih h
      | some token =>
          rw [List.filterMap_cons_some hname, ← List.singleton_append]
          cases token with
          | terminal t =>
              obtain ⟨value, hvalue, hsteps⟩ := steps_of_terminal hname
              rw [hsteps] at h
              cases values with
              | nil => cases h
              | cons next values =>
                  rw [Step.read] at h
                  split at h
                  · next heq =>
                      subst heq
                      exact (consumes_terminal hvalue).append (ih h)
                  · cases h
          | nonterminal n =>
              obtain ⟨nullable, hsteps⟩ := steps_of_nonterminal hname
              rw [hsteps, Step.read] at h
              split at h
              · next middle hmiddle =>
                  obtain ⟨m, hm, hconsumes⟩ := hcall _ _ _ hmiddle
                  rw [(findTerminal?_of_nonterminal hname).2] at hm
                  injection hm with hm
                  exact (hm ▸ hconsumes).append (ih h)
              · cases h
              · cases h

/-! ## Routines -/

theorem consumes_of_routine (hcall : g.CallsAreSound call) {settings : Settings}
    {name : String} {symbol : Symbol} {n : Nat}
    (hat : Analysis.symbolAt? g.symbols n = some symbol)
    (h : (g.routine settings name symbol).read call values = .accepted rest) :
    g.Consumes [.nonterminal n] values rest := by
  have hright : ∀ expansion ∈ symbol.expansions,
      expansion.filterMap g.resolve ∈ g.rightSides n := fun expansion hmem =>
    mem_rightSides.mpr ⟨symbol, hat, expansion, hmem, rfl⟩
  unfold Routine.read at h
  split at h
  · next b hb =>
      cases values with
      | nil => cases hb
      | cons value values =>
          obtain ⟨expansion, hmem, -, hsteps⟩ := exists_of_branchFor? hb
          rw [hsteps] at h
          exact (consumes_of_read hcall h).of_mem (hright expansion hmem)
  · split at h
    · next hfallback =>
        injection h with h
        subst h
        exact consumes_nil.of_mem (hright [] (List.isSome_idxOf?.mp hfallback))
    · cases h

end Grammar

namespace Parser

open Grammar

variable {g : Grammar} {settings : Settings} {policy : ConflictPolicy}
  {p : Parser}

theorem callsAreSound_read (hbuild : build g settings policy = .ok p)
    (depth : Nat) : g.CallsAreSound (p.read depth) := by
  induction depth with
  | zero =>
      intro name values rest h
      cases h
  | succ depth ih =>
      intro name values rest h
      rw [read, routine?_of_build hbuild] at h
      cases hfind : g.symbols.find? name with
      | none =>
          rw [hfind] at h
          cases h
      | some symbol =>
          rw [hfind] at h
          obtain ⟨n, hposition, hat⟩ := position?_of_find? hfind
          exact ⟨n, hposition, consumes_of_routine ih hat h⟩

/-- What a routine consumes when it succeeds is what the lexer emits for a word
that its symbol derives. -/
theorem derives_of_read (hbuild : build g settings policy = .ok p)
    {depth : Nat} {name : String} {values rest : List String}
    (hread : p.read depth name values = .accepted rest) :
    ∃ n consumed word, g.symbols.position? name = some n ∧
      values = consumed ++ rest ∧ g.header.Emits word consumed ∧
      g.Derives [.nonterminal n] (word.map .terminal) := by
  obtain ⟨n, hname, consumed, word, heq, hemits, hd⟩ :=
    callsAreSound_read hbuild depth name values rest hread
  exact ⟨n, consumed, word, hname, heq, hemits, hd⟩

/-- Two terminals with one value, so that the second expansion is never
selected. -/
def sharing : Grammar where
  header := .ofItems [.terminal "A" "x", .terminal "B" "x"]
  symbols := Symbol.tableOfRules
    [⟨"s", ["A", "s"]⟩, ⟨"s", ["B"]⟩, ⟨"s", []⟩]

/-- The parser of `sharing`, where a conflict is left. -/
def sharingParser : Parser :=
  sharing.parserFrom (.ofHeader sharing.header) (some "s")

theorem derives_of_read_sharing :
    build sharing (.ofHeader sharing.header) .ignore = .ok sharingParser ∧
      sharingParser.read 3 "s" ["x", "x", "y"] = .accepted ["y"] ∧
      ∃ n consumed word, sharing.symbols.position? "s" = some n ∧
        ["x", "x", "y"] = consumed ++ ["y"] ∧
        sharing.header.Emits word consumed ∧
        sharing.Derives [.nonterminal n] (word.map .terminal) := by
  have hbuild : build sharing (.ofHeader sharing.header) .ignore =
      .ok sharingParser := by rfl
  have hread : sharingParser.read 3 "s" ["x", "x", "y"] = .accepted ["y"] := by
    rfl
  exact ⟨hbuild, hread, derives_of_read hbuild hread⟩

end Parser

end Descent
