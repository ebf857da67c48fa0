import Descent.Proofs.Analysis.Exact
import Descent.Proofs.Grammar.Growth
import Descent.Proofs.Parser.Predictions

/-!
# Which tokens enter a symbol

The analysis and the routine of a symbol both say which tokens the symbol begins with: the
one in the FIRST set, the other in the predictions of the branches. FIRST looks through
nullable symbols, a prediction at the leading name alone. So what predicts an expansion is
always in FIRST (`mem_first_of_predictingSet`), and the other way round where no expansion
begins with a nullable symbol.

For that the FIRST set of the symbol is cut down to what predicts one of its expansions.
The facts stay closed (`firstPredicted_closed`), and the table has the least closed facts,
so nothing was cut off. The symbol may lead back to itself: its expansions then pass the
reduced set on to it, and no more.
-/

namespace Descent.Grammar

open Analysis FirstFacts

variable {g : Grammar} {mode : Mode} {data : Symbol} {n : Nat}

/-! ## Predicted terminals are in FIRST -/

theorem mem_first_of_predictingSet (hf : (factsOf g.symbols).Closed g mode)
    (hat : symbolAt? g.symbols n = some data) {expansion : Expansion}
    (hmem : expansion ∈ data.expansions) {t : Nat} (ht : t ∈ g.predictingSet expansion) :
    t ∈ data.first := by
  rw [← firstAt_of_symbolAt hat]
  cases expansion with
  | nil => exact absurd ht TerminalSet.not_mem_empty
  | cons leading names =>
      cases hleading : g.resolve leading with
      | none =>
          simp only [predictingSet, hleading] at ht
          exact absurd ht TerminalSet.not_mem_empty
      | some token =>
          have hright : token :: names.filterMap g.resolve ∈ g.rightSides n := by
            refine mem_rightSides.mpr ⟨data, hat, _, hmem, ?_⟩
            rw [List.filterMap_cons_some hleading]
          simp only [predictingSet, hleading] at ht
          cases token with
          | terminal id =>
              rw [TerminalSet.mem_singleton.mp ht]
              exact hf.seeded hright
          | nonterminal k => exact hf.first hright (Or.inl ht)

theorem exists_mem_first_of_branch (hf : (factsOf g.symbols).Closed g mode)
    (hat : symbolAt? g.symbols n = some data) {name : String} {b : Branch}
    (hb : b ∈ (g.dispatch name data).1) {terminal : Terminal}
    (hterminal : terminal ∈ b.predictions) :
    ∃ t ∈ data.first, g.header.terminal? t = some terminal := by
  obtain ⟨leading, names, hmem, -, claims, hpredictions⟩ := exists_of_mem_branches hb
  rw [hpredictions] at hterminal
  have hpredicting := (Prediction.predictions_sublist _ _ _).subset hterminal
  rw [predicting_eq g leading names] at hpredicting
  obtain ⟨t, ht, hterminal⟩ := List.mem_filterMap.mp hpredicting
  exact ⟨t, mem_first_of_predictingSet hf hat (List.fst_mem_of_mem_zipIdx hmem) ht, hterminal⟩

/-! ## What is in FIRST is predicted -/

/-- No expansion of a symbol begins with a nullable symbol. -/
def OpensFirmly (g : Grammar) (data : Symbol) : Prop :=
  ∀ expansion ∈ data.expansions, ∀ leading ∈ expansion.head?,
    (g.symbols.find? leading).any Symbol.nullable = false

instance (g : Grammar) (data : Symbol) : Decidable (g.OpensFirmly data) :=
  inferInstanceAs (Decidable (∀ expansion ∈ data.expansions, ∀ leading ∈ expansion.head?,
    (g.symbols.find? leading).any Symbol.nullable = false))

/-- The facts of a table, with the FIRST set of the symbol at a position cut down to what
predicts one of its expansions. -/
def firstPredicted (g : Grammar) (n : Nat) (data : Symbol) : FirstFacts where
  nullable := (factsOf g.symbols).nullable
  first m t := (factsOf g.symbols).first m t ∧
    (m = n → ∃ expansion ∈ data.expansions, t ∈ g.predictingSet expansion)

theorem firstPredicted_le : g.firstPredicted n data ≤ factsOf g.symbols :=
  ⟨id, fun h => h.1⟩

section Firm

variable (hvalid : g.fault? = none) (hat : symbolAt? g.symbols n = some data)

include hvalid hat

/-- The first token of a right side is what the leading name of its expansion stands for. -/
theorem exists_leading_of_mem {token : Token} {rest : List Token}
    (mem : token :: rest ∈ g.rightSides n) :
    ∃ leading names, leading :: names ∈ data.expansions ∧ g.resolve leading = some token := by
  obtain ⟨symbol, hsymbol, expansion, hmem, hright⟩ := mem_rightSides.mp mem
  obtain rfl : data = symbol := Option.some.inj (hat.symm.trans hsymbol)
  cases expansion with
  | nil => cases hright
  | cons leading names =>
      obtain ⟨first, hfirst⟩ := exists_resolve_of_valid hvalid hat hmem List.mem_cons_self
      rw [List.filterMap_cons_some hfirst, List.cons.injEq] at hright
      exact ⟨leading, names, hmem, hright.1 ▸ hfirst⟩

theorem predicted_of_begins (hfirm : g.OpensFirmly data) {right : List Token}
    (mem : right ∈ g.rightSides n) {t : Nat}
    (h : (factsOf g.symbols).Begins mode right t) :
    ∃ expansion ∈ data.expansions, t ∈ g.predictingSet expansion := by
  cases right with
  | nil => exact h.elim
  | cons token rest =>
      obtain ⟨leading, names, hmem, hleading⟩ := exists_leading_of_mem hvalid hat mem
      refine ⟨leading :: names, hmem, ?_⟩
      simp only [predictingSet, hleading]
      cases token with
      | terminal id => exact TerminalSet.mem_singleton.mpr h.2
      | nonterminal k =>
          refine h.resolve_right fun hbehind => ?_
          obtain ⟨-, hposition⟩ := resolve_eq_some_nonterminal_iff.mp hleading
          obtain ⟨other, hfind, hother⟩ := find?_of_position? hposition
          have hsolid := hfirm _ hmem leading rfl
          have hnull : nullableAt g.symbols k = true := hbehind.1
          rw [nullableAt, hother, ← hfind, hsolid] at hnull
          cases hnull

theorem firstPredicted_closed (hfirm : g.OpensFirmly data)
    (hf : (factsOf g.symbols).Closed g mode) : (g.firstPredicted n data).Closed g mode where
  seeded mem := by
    refine ⟨hf.seeded mem, ?_⟩
    rintro rfl
    obtain ⟨leading, names, hmem, hleading⟩ := exists_leading_of_mem hvalid hat mem
    refine ⟨_, hmem, ?_⟩
    simp only [predictingSet, hleading]
    exact TerminalSet.mem_singleton.mpr rfl
  first mem h := by
    refine ⟨hf.first mem (h.mono firstPredicted_le), ?_⟩
    rintro rfl
    exact predicted_of_begins hvalid hat hfirm mem (h.mono firstPredicted_le)
  nullable mem h := hf.nullable mem (h.mono firstPredicted_le)

end Firm

theorem exists_label_of_first {source : String} {g₀ : Grammar}
    (hparse : Grammar.parse source = .ok g₀) (hanalyze : g₀.analyze mode = .ok g)
    (hat : symbolAt? g.symbols n = some data) (hfirm : g.OpensFirmly data) {t : Nat}
    (ht : t ∈ data.first) {value : String} (hvalue : g.header.value? t = some value)
    (name : String) :
    ∃ b ∈ (g.dispatch name data).1, ∃ terminal ∈ b.predictions, terminal.value = value := by
  have hle : factsOf g.symbols ≤ g.firstPredicted n data :=
    facts_le_of_closed hparse hanalyze
      (firstPredicted_closed (fault?_of_analyze hanalyze) hat hfirm
        (closed_of_analyze_self hanalyze)) fun _ hnull => hnull
  have hfirst : t ∈ firstAt g.symbols n := by
    rw [firstAt_of_symbolAt hat]
    exact ht
  obtain ⟨expansion, hmem, hpredicts⟩ := (hle.first hfirst).2 rfl
  obtain ⟨index, hindex⟩ := List.getElem?_of_mem hmem
  have honce := (firstDeclaredWins_dispatch g name data).once
    ⟨index, t, expansion, hindex, hpredicts, hvalue⟩
  have hpos : 0 < ((g.dispatch name data).1.flatMap Branch.predictions).countP
      (·.value == value) := by omega
  obtain ⟨terminal, hterminal, hlabel⟩ := List.countP_pos_iff.mp hpos
  obtain ⟨b, hb, hterminal⟩ := List.mem_flatMap.mp hterminal
  exact ⟨b, hb, terminal, hterminal, beq_iff_eq.mp hlabel⟩

/-! ## Dispatch and analysis -/

/-- What the branches of a symbol predict is in the FIRST set of the symbol. Where no
expansion begins with a nullable symbol, the branches predict every value in FIRST. -/
theorem dispatch_agrees_first {source : String} {g₀ : Grammar}
    (hparse : Grammar.parse source = .ok g₀) (hanalyze : g₀.analyze mode = .ok g)
    {name : String} (hfind : g.symbols.find? name = some data) (settings : Settings) :
    (∀ policy p, Parser.build g settings policy = .ok p →
      p.routine? name = some (g.routine settings name data)) ∧
    (∀ b ∈ (g.routine settings name data).branches, ∀ terminal ∈ b.predictions,
      ∃ t ∈ data.first, g.header.terminal? t = some terminal) ∧
    (g.OpensFirmly data → ∀ value,
      (∃ b ∈ (g.routine settings name data).branches, ∃ terminal ∈ b.predictions,
        terminal.value = value) ↔ ∃ t ∈ data.first, g.header.value? t = some value) := by
  obtain ⟨n, -, hat⟩ := position?_of_find? hfind
  have hin : ∀ b ∈ (g.dispatch name data).1, ∀ terminal ∈ b.predictions,
      ∃ t ∈ data.first, g.header.terminal? t = some terminal := by
    intro b hb terminal hterminal
    exact exists_mem_first_of_branch (closed_of_analyze_self hanalyze) hat hb hterminal
  refine ⟨?_, hin, ?_⟩
  · intro policy p hbuild
    rw [Parser.routine?_of_build hbuild, hfind, Option.map_some]
  · intro hfirm value
    constructor
    · rintro ⟨b, hb, terminal, hterminal, rfl⟩
      obtain ⟨t, ht, hat⟩ := hin b hb terminal hterminal
      exact ⟨t, ht, by rw [Header.value?, hat, Option.map_some]⟩
    · rintro ⟨t, ht, hvalue⟩
      exact exists_label_of_first hparse hanalyze hat hfirm ht hvalue name

/-- A source where `s` leads back to itself, at once and by way of `v`, and begins with two
terminals that have one value. -/
def enteredSource : String :=
  "A = x\nB = x\nC = c\n%%\ns := s C\ns := A e\ns := v C\nv := B\nv := s v\ne :=\n%%"

/-- The grammar of `enteredSource`. -/
def entered : Grammar where
  header := .ofItems [.terminal "A" "x", .terminal "B" "x", .terminal "C" "c"]
  symbols := Symbol.tableOfRules [⟨"s", ["s", "C"]⟩, ⟨"s", ["A", "e"]⟩, ⟨"s", ["v", "C"]⟩,
    ⟨"v", ["B"]⟩, ⟨"v", ["s", "v"]⟩, ⟨"e", []⟩]

/-- The same grammar with its sets. -/
def enteredAnalyzed : Grammar :=
  { entered with symbols := (entered.analysis .firstOnly).symbols }

set_option maxRecDepth 4000 in
theorem dispatch_agrees_first_entered :
    Grammar.parse enteredSource = .ok entered ∧
      entered.analyze .firstOnly = .ok enteredAnalyzed ∧
      ∃ data, enteredAnalyzed.symbols.find? "s" = some data ∧ data.first.ids = [0, 1] ∧
        enteredAnalyzed.OpensFirmly data ∧ ∀ value,
          (∃ b ∈ (enteredAnalyzed.routine (.ofHeader entered.header) "s" data).branches,
            ∃ terminal ∈ b.predictions, terminal.value = value) ↔
          ∃ t ∈ data.first, enteredAnalyzed.header.value? t = some value := by
  have hparse : Grammar.parse enteredSource = .ok entered := by rfl
  have hanalyze : entered.analyze .firstOnly = .ok enteredAnalyzed := by rfl
  obtain ⟨data, hfind, hfirst, hfirm⟩ : ∃ data, enteredAnalyzed.symbols.find? "s" = some data ∧
      data.first.ids = [0, 1] ∧ enteredAnalyzed.OpensFirmly data :=
    ⟨_, rfl, rfl, by decide⟩
  exact ⟨hparse, hanalyze, data, hfind, hfirst, hfirm,
    (dispatch_agrees_first hparse hanalyze hfind (.ofHeader entered.header)).2.2 hfirm⟩

end Descent.Grammar
