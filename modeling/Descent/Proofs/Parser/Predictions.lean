import Descent.Analysis.Basic
import Descent.File.Basic
import Descent.Proofs.Parser.Build
import Descent.Proofs.Parser.Selection

/-!
# The predictions of a routine

Every value that predicts an expansion of a symbol becomes one label of the
symbol's routine, and no other value becomes one (`FirstDeclaredWins`). The
label stands at the first expansion that the value predicts, under the name of
the first terminal there that has the value, and the labels of a branch rise by
terminal.

The argument is about one value at a time. Settling an expansion leaves nothing
of a value that is owned already, and of a free one just the first terminal that
has it (`find?_predictions_of_free`). The owner never changes after that, so a
walk along the expansions counts one label (`countP_branches_of_free`).
-/

namespace Descent

/-! ## Settling -/

namespace Prediction

variable {expansion : Nat} {terminals : List Terminal} {value : String}
  {owned : Claims}

/-- The predictions are some of the terminals, in their order. -/
theorem predictions_sublist (expansion : Nat) (terminals : List Terminal)
    (owned : Claims) :
    (settle expansion owned terminals).predictions.Sublist terminals := by
  induction terminals generalizing owned with
  | nil => exact .slnil
  | cons terminal terminals ih =>
      unfold settle
      split
      · exact (ih _).cons_cons terminal
      · split
        · exact (ih _).cons terminal
        · exact (ih _).cons terminal

theorem countP_eq_zero_of_not_offers (h : ¬ Offers terminals value) :
    terminals.countP (·.value == value) = 0 := by
  refine List.countP_eq_zero.mpr fun terminal hmem heq => h ?_
  exact ⟨terminal, hmem, beq_iff_eq.mp heq⟩

/-- Of a value that nobody owns, the first terminal is predicted. -/
theorem find?_predictions_of_free (h : owned.lookup value = none) :
    (settle expansion owned terminals).predictions.find? (·.value == value) =
      terminals.find? (·.value == value) := by
  induction terminals generalizing owned with
  | nil => rfl
  | cons terminal terminals ih =>
      by_cases heq : terminal.value = value
      · subst heq
        rw [settle_cons_of_free h, List.find?_cons_of_pos (by simp),
          List.find?_cons_of_pos (by simp)]
      · have hne : (terminal.value == value) = false := beq_false_of_ne heq
        rw [List.find?_cons, hne]
        unfold settle
        split
        · have hfree : ((terminal.value, expansion) :: owned).lookup value =
              none := by
            rw [Table.lookup_cons, if_neg (Ne.symm heq), h]
          rw [List.find?_cons, hne]
          exact ih hfree
        · split
          · exact ih h
          · exact ih h

/-- And no other terminal that has the value. -/
theorem countP_predictions_of_free (h : owned.lookup value = none)
    (hoffers : Offers terminals value) :
    (settle expansion owned terminals).predictions.countP (·.value == value) =
      1 := by
  induction terminals generalizing owned with
  | nil =>
      obtain ⟨_, hmem, _⟩ := hoffers
      cases hmem
  | cons terminal terminals ih =>
      by_cases heq : terminal.value = value
      · subst heq
        have hkept : ((terminal.value, expansion) :: owned).lookup
            terminal.value = some expansion := by
          rw [Table.lookup_cons, if_pos rfl]
        have hlater := countP_eq_zero_of_not_offers
          (settle_of_owned expansion terminals hkept).2
        rw [settle_cons_of_free h, List.countP_cons_of_pos (by simp)]
        exact congrArg (· + 1) hlater
      · have hne : ¬ (terminal.value == value) = true := by simpa using heq
        have hrest : Offers terminals value :=
          (offers_cons.mp hoffers).resolve_left heq
        unfold settle
        split
        · have hfree : ((terminal.value, expansion) :: owned).lookup value =
              none := by
            rw [Table.lookup_cons, if_neg (Ne.symm heq), h]
          rw [← ih hfree hrest]
          exact List.countP_cons_of_neg hne
        · split
          · exact ih h hrest
          · exact ih h hrest

end Prediction

namespace Grammar

open Analysis Prediction

variable {g : Grammar} {data : Symbol} {value : String}

/-! ## Predicting sets -/

/-- The terminals that predict an expansion: the one that it begins with, or the
FIRST set of the symbol that it begins with. -/
def predictingSet (g : Grammar) : Expansion → TerminalSet
  | [] => ∅
  | leading :: _ =>
      match g.resolve leading with
      | some (.terminal id) => .singleton id
      | some (.nonterminal n) => firstAt g.symbols n
      | none => ∅

/-- The expansion of a symbol at an index is predicted by the declared terminal
at a position, which has a value. -/
def Predicts (g : Grammar) (data : Symbol) (index t : Nat) (value : String) :
    Prop :=
  ∃ expansion, data.expansions[index]? = some expansion ∧
    t ∈ g.predictingSet expansion ∧ g.header.value? t = some value

theorem predicting_eq (g : Grammar) (leading : String) (names : Expansion) :
    g.predicting leading =
      g.header.terminalsOf (g.predictingSet (leading :: names)) := by
  simp only [predicting, predictingSet]
  cases g.resolve leading with
  | none => rfl
  | some token =>
      cases token with
      | terminal id => rfl
      | nonterminal n =>
          simp only [firstAt, symbolAt?]
          cases g.symbols.at? n with
          | none => rfl
          | some entry => rfl

theorem claims_iff_predictingSet {expansion : Expansion} :
    g.claims value expansion = true ↔
      ∃ t ∈ g.predictingSet expansion, g.header.value? t = some value := by
  cases expansion with
  | nil => simp [claims, predictingSet, TerminalSet.not_mem_empty]
  | cons leading names =>
      rw [claims_cons, predicting_eq g leading names, offers_terminalsOf]

theorem exists_predicts_iff {index : Nat} :
    (∃ t, g.Predicts data index t value) ↔
      ∃ expansion, data.expansions[index]? = some expansion ∧
        g.claims value expansion = true := by
  simp only [claims_iff_predictingSet]
  constructor
  · rintro ⟨t, expansion, hat, hmem, hvalue⟩
    exact ⟨expansion, hat, t, hmem, hvalue⟩
  · rintro ⟨expansion, hat, t, hmem, hvalue⟩
    exact ⟨t, expansion, hat, hmem, hvalue⟩

/-- Of the terminals of a set that have a value, the one at the smallest
position comes first. -/
theorem find?_terminalsOf {h : Header} {set : TerminalSet} {t : Nat}
    {terminal : Terminal} (ht : t ∈ set) (hat : h.terminal? t = some terminal)
    (hleast : ∀ u ∈ set, h.value? u = some terminal.value → t ≤ u) :
    (h.terminalsOf set).find? (·.value == terminal.value) = some terminal := by
  obtain ⟨front, back, hids⟩ := List.append_of_mem ht
  have hsorted := set.sorted
  rw [hids, List.pairwise_append] at hsorted
  have hfront : ∀ other ∈ front.filterMap h.terminal?,
      ¬ (other.value == terminal.value) = true := by
    intro other hother heq
    obtain ⟨u, hu, hat'⟩ := List.mem_filterMap.mp hother
    have hvalue : h.value? u = some terminal.value := by
      rw [Header.value?, hat', Option.map_some, beq_iff_eq.mp heq]
    have hu' : u ∈ set := by
      rw [TerminalSet.mem_def, hids]
      exact List.mem_append_left _ hu
    have hlt := hsorted.2.2 u hu t List.mem_cons_self
    exact absurd (hleast u hu' hvalue) (Nat.not_le.mpr hlt)
  rw [Header.terminalsOf, hids, List.filterMap_append, List.find?_append,
    List.find?_eq_none.mpr hfront, Option.none_or,
    List.filterMap_cons_some hat, List.find?_cons_of_pos (by simp)]

/-! ## The branches of a symbol -/

variable {symbol : String} {owned : Claims} {es : List (Expansion × Nat)}

/-- A branch belongs to a non-empty expansion, and its predictions come from
settling that expansion. -/
theorem exists_of_mem_branches {b : Branch}
    (hb : b ∈ (g.branches symbol owned es).1) :
    ∃ leading names, (leading :: names, b.expansion) ∈ es ∧
      b.steps = g.steps 0 0 (leading :: names) ∧
      ∃ claims : Claims, b.predictions =
        (settle b.expansion claims (g.predicting leading)).predictions := by
  induction es generalizing owned with
  | nil => cases hb
  | cons e es ih =>
      obtain ⟨expansion, index⟩ := e
      cases expansion with
      | nil =>
          obtain ⟨leading, names, hmem, hrest⟩ := ih hb
          exact ⟨leading, names, List.mem_cons_of_mem _ hmem, hrest⟩
      | cons leading names =>
          rcases List.mem_cons.mp hb with rfl | hb
          · exact ⟨leading, names, List.mem_cons_self, rfl, owned, rfl⟩
          · obtain ⟨leading', names', hmem, hrest⟩ := ih hb
            exact ⟨leading', names', List.mem_cons_of_mem _ hmem, hrest⟩

theorem countP_branches_of_owned {owner : Nat}
    (h : owned.lookup value = some owner) :
    ((g.branches symbol owned es).1.flatMap Branch.predictions).countP
        (·.value == value) = 0 := by
  induction es generalizing owned with
  | nil => rfl
  | cons e es ih =>
      obtain ⟨expansion, index⟩ := e
      cases expansion with
      | nil => exact ih h
      | cons leading names =>
          obtain ⟨hkept, hnot⟩ := settle_of_owned index (g.predicting leading) h
          rw [branches, List.flatMap_cons, List.countP_append,
            countP_eq_zero_of_not_offers hnot]
          exact (Nat.zero_add _).trans (ih hkept)

/-- A value that nobody owns becomes one label if an expansion claims it. -/
theorem countP_branches_of_free (h : owned.lookup value = none) :
    ((g.branches symbol owned es).1.flatMap Branch.predictions).countP
        (·.value == value) =
      if es.any fun e => g.claims value e.1 then 1 else 0 := by
  induction es generalizing owned with
  | nil => rfl
  | cons e es ih =>
      obtain ⟨expansion, index⟩ := e
      cases expansion with
      | nil => exact ih h
      | cons leading names =>
          obtain ⟨hown, hfree, -⟩ := settle_of_free index
            (g.predicting leading) h
          rw [branches, List.flatMap_cons, List.countP_append,
            List.any_cons]
          cases hclaim : g.claims value (leading :: names) with
          | true =>
              have hoffers := claims_cons.mp hclaim
              rw [countP_predictions_of_free h hoffers, Bool.true_or,
                if_pos rfl]
              exact congrArg (1 + ·) (countP_branches_of_owned (hown hoffers))
          | false =>
              rw [← Bool.not_eq_true, claims_cons] at hclaim
              have hnot : ¬ Offers (settle index owned
                  (g.predicting leading)).predictions value := by
                rintro ⟨t, ht, heq⟩
                exact hclaim ⟨t, (predictions_sublist _ _ _).subset ht, heq⟩
              rw [countP_eq_zero_of_not_offers hnot, Bool.false_or]
              exact (Nat.zero_add _).trans (ih (hfree hclaim))

/-! ## Owners -/

/-- The first expansion of a symbol that claims a value. -/
def owner? (g : Grammar) (data : Symbol) (value : String) : Option Nat :=
  data.expansions.findIdx? (g.claims value)

theorem owner?_eq_some_iff {index : Nat} :
    g.owner? data value = some index ↔
      (∃ t, g.Predicts data index t value) ∧
        ∀ j t, g.Predicts data j t value → index ≤ j := by
  rw [owner?, List.findIdx?_eq_some_iff_getElem, exists_predicts_iff]
  constructor
  · rintro ⟨hlt, hclaim, hfirst⟩
    refine ⟨⟨_, List.getElem?_eq_getElem hlt, hclaim⟩, fun j t hpredicts => ?_⟩
    obtain ⟨expansion, hat, hclaim'⟩ := exists_predicts_iff.mp ⟨t, hpredicts⟩
    obtain ⟨hj, rfl⟩ := List.getElem?_eq_some_iff.mp hat
    exact Nat.le_of_not_lt fun hji => hfirst j hji hclaim'
  · rintro ⟨⟨expansion, hat, hclaim⟩, hfirst⟩
    obtain ⟨hlt, rfl⟩ := List.getElem?_eq_some_iff.mp hat
    refine ⟨hlt, hclaim, fun j hji hclaim' => ?_⟩
    have hj : data.expansions[j]? = some data.expansions[j] :=
      List.getElem?_eq_getElem (Nat.lt_trans hji hlt)
    obtain ⟨t, hpredicts⟩ := exists_predicts_iff.mpr ⟨_, hj, hclaim'⟩
    exact absurd (hfirst j t hpredicts) (Nat.not_le.mpr hji)

theorem any_claims_iff :
    (data.expansions.zipIdx.any fun e => g.claims value e.1) = true ↔
      ∃ index t, g.Predicts data index t value := by
  simp only [exists_predicts_iff, List.any_eq_true, Prod.exists,
    List.mk_mem_zipIdx_iff_getElem?]
  exact exists_comm.trans (exists_congr fun index => Iff.rfl)

/-- The branch that has the label of a value is that of the owner. -/
theorem find?_dispatch_expansion (g : Grammar) (name : String) (data : Symbol)
    (value : String) :
    ((g.dispatch name data).1.find? (·.predicts value)).map Branch.expansion =
      g.owner? data value := by
  have hfirst := congrArg (Option.map Prod.fst)
    (g.find?_dispatch name data value)
  rw [Option.map_map, Option.map_map] at hfirst
  rw [owner?, List.findIdx?_eq_fst_find?_zipIdx]
  exact hfirst

/-- In the owner's branch, the first terminal of the owner's predicting set that
has the value is the label. -/
theorem exists_branch_of_owner? (name : String) {index : Nat}
    {expansion : Expansion} {terminal : Terminal}
    (howner : g.owner? data terminal.value = some index)
    (hat : data.expansions[index]? = some expansion)
    (hfind : (g.header.terminalsOf (g.predictingSet expansion)).find?
      (·.value == terminal.value) = some terminal) :
    ∃ b ∈ (g.dispatch name data).1, b.expansion = index ∧
      terminal ∈ b.predictions := by
  have hbranch := g.find?_dispatch_expansion name data terminal.value
  rw [howner] at hbranch
  obtain ⟨b, hb, hindex⟩ := Option.map_eq_some_iff.mp hbranch
  have hmem := List.mem_of_find?_eq_some hb
  have hpredicts := List.find?_some hb
  have hoffers := predicts_iff.mp hpredicts
  obtain ⟨leading, names, he, -, claims, hpredictions⟩ :=
    exists_of_mem_branches hmem
  have hat' := List.mk_mem_zipIdx_iff_getElem?.mp he
  rw [hindex, hat, Option.some.injEq] at hat'
  subst hat'
  rw [← predicting_eq] at hfind
  rw [hpredictions] at hoffers
  have hfree : claims.lookup terminal.value = none := by
    cases howned : claims.lookup terminal.value with
    | none => rfl
    | some owner => exact absurd hoffers (settle_of_owned _ _ howned).2
  refine ⟨b, hmem, hindex, ?_⟩
  rw [hpredictions]
  exact List.mem_of_find?_eq_some ((find?_predictions_of_free hfree).trans hfind)

/-! ## Rising labels -/

/-- What is left of a list of terminals by position still rises by position. -/
theorem rising_of_sublist {h : Header} {set : TerminalSet}
    {terminals : List Terminal} (hsub : terminals.Sublist (h.terminalsOf set)) :
    ∃ ids : List Nat, ids.Pairwise (· < ·) ∧
      ids.map h.terminal? = terminals.map some := by
  obtain ⟨ids, hids, rfl⟩ := List.sublist_filterMap_iff.mp hsub
  refine ⟨ids.filter fun id => (h.terminal? id).isSome,
    (set.sorted.sublist hids).filter _, ?_⟩
  clear hids hsub
  induction ids with
  | nil => rfl
  | cons id ids ih =>
      cases hat : h.terminal? id with
      | none => simpa [hat] using ih
      | some terminal => simpa [hat] using ih

/-! ## Every value has one label -/

/-- The predictions of a symbol's branches: a value has one label if it predicts
an expansion, and none otherwise; the label stands at the first such expansion
and has the name of the first terminal there that has the value; and the labels
of a branch rise by terminal. -/
structure FirstDeclaredWins (g : Grammar) (data : Symbol)
    (branches : List Branch) : Prop where
  once {value : String} (h : ∃ index t, g.Predicts data index t value) :
    (branches.flatMap Branch.predictions).countP (·.value == value) = 1
  never {value : String} (h : ¬ ∃ index t, g.Predicts data index t value) :
    (branches.flatMap Branch.predictions).countP (·.value == value) = 0
  least {index t : Nat} {value : String} (h : g.Predicts data index t value)
    (hindex : ∀ j u, g.Predicts data j u value → index ≤ j)
    (ht : ∀ u, g.Predicts data index u value → t ≤ u) :
    ∃ b ∈ branches, b.expansion = index ∧ ∃ terminal ∈ b.predictions,
      g.header.terminal? t = some terminal ∧ terminal.value = value
  rising {b : Branch} (hb : b ∈ branches) :
    ∃ ids : List Nat, ids.Pairwise (· < ·) ∧
      ids.map g.header.terminal? = b.predictions.map some

theorem firstDeclaredWins_dispatch (g : Grammar) (name : String)
    (data : Symbol) : FirstDeclaredWins g data (g.dispatch name data).1 where
  once h := by
    rw [dispatch, countP_branches_of_free rfl, if_pos (any_claims_iff.mpr h)]
  never h := by
    rw [dispatch, countP_branches_of_free rfl,
      if_neg (mt any_claims_iff.mp h)]
  least {index t value} h hindex ht := by
    have howner := owner?_eq_some_iff.mpr ⟨⟨t, h⟩, hindex⟩
    obtain ⟨expansion, hat, hmem, hvalue⟩ := h
    obtain ⟨terminal, hterminal, rfl⟩ := Option.map_eq_some_iff.mp hvalue
    have hfind := find?_terminalsOf hmem hterminal fun u hu hvalue' =>
      ht u ⟨expansion, hat, hu, hvalue'⟩
    obtain ⟨b, hb, hindex, hpredicted⟩ :=
      exists_branch_of_owner? name howner hat hfind
    exact ⟨b, hb, hindex, terminal, hpredicted, hterminal, rfl⟩
  rising {b} hb := by
    obtain ⟨leading, names, -, -, claims, hpredictions⟩ :=
      exists_of_mem_branches hb
    have hsub := predictions_sublist b.expansion (g.predicting leading) claims
    rw [← hpredictions, predicting_eq g leading names] at hsub
    exact rising_of_sublist hsub

/-- If all names of a grammar stand for something, a parser is built for any
settings whose start symbol exists, and in every parser that is built the
routine of a symbol has, for every value that predicts an expansion, one label,
at the first such expansion. -/
theorem routine_firstDeclaredWins {settings : Settings} {name : String}
    (hnames : g.undefined? g.mentionedNames = none)
    (hfind : g.symbols.find? name = some data) :
    (∀ start, g.startSymbol settings = .ok start →
      ∃ p, Parser.build g settings .ignore = .ok p) ∧
    (∀ policy p, Parser.build g settings policy = .ok p →
      p.routine? name = some (g.routine settings name data)) ∧
    FirstDeclaredWins g data (g.routine settings name data).branches := by
  refine ⟨fun start hstart => ?_, fun policy p hbuild => ?_, ?_⟩
  · exact ⟨_, Parser.build_of_defined hstart hnames⟩
  · rw [Parser.routine?_of_build hbuild, hfind, Option.map_some]
  · exact firstDeclaredWins_dispatch g name data

/-- Two terminals with one value, of which one predicts the first expansion of
`s` and the other, by way of `v`, the second. -/
def overlapping : Grammar where
  header := .ofItems
    [.terminal "A" "x", .terminal "B" "x", .terminal "C" "c"]
  symbols := Symbol.tableOfRules [⟨"s", ["A"]⟩, ⟨"s", []⟩, ⟨"s", ["v", "C"]⟩,
    ⟨"v", ["B"]⟩, ⟨"v", ["C"]⟩]

/-- The same grammar with its sets. -/
def overlappingAnalyzed : Grammar :=
  { overlapping with symbols := (overlapping.analysis .follow).symbols }

theorem routine_firstDeclaredWins_overlapping :
    overlappingAnalyzed.undefined? overlappingAnalyzed.mentionedNames = none ∧
      ∃ data, overlappingAnalyzed.symbols.find? "s" = some data ∧
        FirstDeclaredWins overlappingAnalyzed data
          (overlappingAnalyzed.routine (.ofHeader overlappingAnalyzed.header)
            "s" data).branches :=
  have hnames : overlappingAnalyzed.undefined?
      overlappingAnalyzed.mentionedNames = none := by rfl
  ⟨hnames, _, rfl, (routine_firstDeclaredWins hnames rfl).2.2⟩

end Grammar

end Descent
