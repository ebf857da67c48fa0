import Descent.Parser.Basic
import Descent.Parser.Reader
import Descent.Proofs.Analysis.Productions

/-!
# Which branch a value selects

The expansions of a symbol are settled one after the other, and what the earlier
ones own is handed on as a list of claims. Seen from one value that list is a
single entry: the first expansion that claims the value gets it, and the later
ones do not (`find?_branches`).

A later expansion that claims the value as well leaves a conflict behind. So
where there is no conflict, at most one expansion claims a value, and a value
that an expansion claims selects that expansion's branch
(`branchFor?_of_claims`).
-/

namespace Descent

/-! ## Settling -/

namespace Prediction

variable {expansion : Nat} {terminals : List Terminal} {value : String}

/-- One of the terminals has a value. -/
def Offers (terminals : List Terminal) (value : String) : Prop :=
  ∃ terminal ∈ terminals, terminal.value = value

theorem offers_cons {terminal : Terminal} :
    Offers (terminal :: terminals) value ↔
      terminal.value = value ∨ Offers terminals value := by
  simp only [Offers, List.mem_cons, exists_eq_or_imp]

theorem settle_cons_of_free {claims : Claims} {terminal : Terminal}
    (h : claims.lookup terminal.value = none) :
    settle expansion claims (terminal :: terminals) =
      let settled := settle expansion ((terminal.value, expansion) :: claims)
        terminals
      { settled with predictions := terminal :: settled.predictions } := by
  rw [settle, h]

/-- A value that is owned stays with its owner, and no prediction has it. -/
theorem settle_of_owned (expansion : Nat) (terminals : List Terminal)
    {claims : Claims} {owner : Nat} (h : claims.lookup value = some owner) :
    (settle expansion claims terminals).claims.lookup value = some owner ∧
      ¬ Offers (settle expansion claims terminals).predictions value := by
  induction terminals generalizing claims with
  | nil =>
      refine ⟨h, fun hoffers => ?_⟩
      obtain ⟨_, hmem, _⟩ := hoffers
      cases hmem
  | cons terminal terminals ih =>
      unfold settle
      split
      · next hfree =>
          have hne : value ≠ terminal.value := by
            intro heq
            rw [heq, hfree] at h
            cases h
          have hkept : ((terminal.value, expansion) :: claims).lookup value =
              some owner := by
            rw [Table.lookup_cons, if_neg hne, h]
          refine ⟨(ih hkept).1, fun hoffers => ?_⟩
          rcases offers_cons.mp hoffers with heq | hrest
          · exact hne heq.symm
          · exact (ih hkept).2 hrest
      · split
        · exact ih h
        · exact ih h

/-- A value that nobody owns goes to the expansion if one of the terminals has
it, and otherwise nothing changes for it. -/
theorem settle_of_free (expansion : Nat) (terminals : List Terminal)
    {claims : Claims} (h : claims.lookup value = none) :
    (Offers terminals value →
      (settle expansion claims terminals).claims.lookup value =
        some expansion) ∧
    (¬ Offers terminals value →
      (settle expansion claims terminals).claims.lookup value = none) ∧
    (Offers (settle expansion claims terminals).predictions value ↔
      Offers terminals value) := by
  induction terminals generalizing claims with
  | nil =>
      refine ⟨fun hoffers => ?_, fun _ => h, Iff.rfl⟩
      obtain ⟨_, hmem, _⟩ := hoffers
      cases hmem
  | cons terminal terminals ih =>
      by_cases heq : terminal.value = value
      · subst heq
        have hkept : ((terminal.value, expansion) :: claims).lookup
            terminal.value = some expansion := by
          rw [Table.lookup_cons, if_pos rfl]
        have hoffers : ∀ others, Offers (terminal :: others) terminal.value :=
          fun others => offers_cons.mpr (Or.inl rfl)
        rw [settle_cons_of_free h]
        exact ⟨fun _ => (settle_of_owned _ _ hkept).1,
          fun hnot => absurd (hoffers _) hnot,
          iff_of_true (hoffers _) (hoffers _)⟩
      · have hdrop : Offers (terminal :: terminals) value ↔
            Offers terminals value := by
          rw [offers_cons, or_iff_right heq]
        rw [hdrop]
        have hne : value ≠ terminal.value := fun h' => heq h'.symm
        unfold settle
        split
        · have hkept : ((terminal.value, expansion) :: claims).lookup value =
              none := by
            rw [Table.lookup_cons, if_neg hne, h]
          obtain ⟨hown, hfree, hpredicted⟩ := ih hkept
          refine ⟨hown, hfree, ?_⟩
          rw [offers_cons, or_iff_right heq]
          exact hpredicted
        · split
          · exact ih h
          · exact ih h

/-- The terminals that are refused are those whose value another expansion
owns. -/
theorem mem_refused {claims : Claims} {terminal : Terminal} {owner : Nat} :
    (terminal, owner) ∈ (settle expansion claims terminals).refused ↔
      terminal ∈ terminals ∧ claims.lookup terminal.value = some owner ∧
        owner ≠ expansion := by
  induction terminals generalizing claims with
  | nil => simp [settle]
  | cons first terminals ih =>
      unfold settle
      split
      · next hfree =>
          rw [ih, Table.lookup_cons, List.mem_cons]
          by_cases heq : terminal.value = first.value
          · rw [if_pos heq, heq, hfree]
            simp only [Option.some.injEq, reduceCtorEq, false_and, and_false,
              iff_false]
            intro h
            exact h.2.2 h.2.1.symm
          · have hne : terminal ≠ first := fun h => heq (congrArg _ h)
            rw [if_neg heq, or_iff_right hne]
      · next other howned =>
          have hfirst : terminal = first →
              (claims.lookup terminal.value = some owner ↔ owner = other) := by
            intro h
            rw [h, howned, Option.some.injEq, eq_comm]
          split
          · next hown =>
              rw [ih, List.mem_cons]
              refine ⟨fun h => ⟨Or.inr h.1, h.2⟩, fun h => ⟨?_, h.2⟩⟩
              refine h.1.resolve_left fun hterminal => h.2.2 ?_
              rw [(hfirst hterminal).mp h.2.1, hown]
          · next hother =>
              rw [List.mem_cons, ih, List.mem_cons, Prod.mk.injEq]
              refine ⟨fun h => ?_, fun h => ?_⟩
              · rcases h with ⟨hterminal, rfl⟩ | h
                · exact ⟨Or.inl hterminal, (hfirst hterminal).mpr rfl, hother⟩
                · exact ⟨Or.inr h.1, h.2⟩
              · rcases h.1 with hterminal | hmem
                · exact Or.inl ⟨hterminal, (hfirst hterminal).mp h.2.1⟩
                · exact Or.inr ⟨hmem, h.2⟩

end Prediction

/-! ## Claims of expansions -/

namespace Grammar

open Analysis FirstFacts Prediction

variable {g : Grammar} {value : String}

/-- An expansion claims a value: a terminal that predicts its leading name has
it. -/
def claims (g : Grammar) (value : String) : Expansion → Bool
  | [] => false
  | leading :: _ => (g.predicting leading).any fun t => t.value == value

theorem claims_cons {leading : String} {names : List String} :
    g.claims value (leading :: names) = true ↔
      Offers (g.predicting leading) value := by
  simp only [claims, List.any_eq_true, beq_iff_eq, Offers]

theorem offers_terminalsOf {h : Header} {set : TerminalSet} :
    Offers (h.terminalsOf set) value ↔ ∃ t ∈ set, h.value? t = some value := by
  unfold Offers Header.terminalsOf Header.value?
  simp only [List.mem_filterMap, Option.map_eq_some_iff]
  refine ⟨fun h => ?_, fun h => ?_⟩
  · obtain ⟨terminal, ⟨t, ht, hat⟩, hvalue⟩ := h
    exact ⟨t, ht, terminal, hat, hvalue⟩
  · obtain ⟨t, ht, terminal, hat, hvalue⟩ := h
    exact ⟨terminal, ⟨t, ht, hat⟩, hvalue⟩

/-- What predicts an expansion begins its first token. -/
theorem claims_iff {leading : String} {names : List String} :
    g.claims value (leading :: names) = true ↔
      ∃ token, g.resolve leading = some token ∧ ∃ t,
        (factsOf g.symbols).Begins .follow [token] t ∧
          g.header.value? t = some value := by
  rw [claims_cons, predicting]
  cases g.resolve leading with
  | none => simp [Offers]
  | some token =>
      simp only [Option.some.injEq, exists_eq_left']
      cases token with
      | terminal id =>
          rw [offers_terminalsOf]
          simp [Begins, TerminalSet.mem_singleton]
      | nonterminal n =>
          simp only [Begins, and_false, or_false]
          show _ ↔ ∃ t, t ∈ firstAt g.symbols n ∧ _
          unfold firstAt symbolAt?
          cases g.symbols.at? n with
          | none => simp [Offers, TerminalSet.not_mem_empty]
          | some entry => exact offers_terminalsOf

/-- What an expansion claims is in the FIRST set of its symbol. -/
theorem exists_first_of_claims {mode : Mode} {n : Nat} {symbol : Symbol}
    (hf : (factsOf g.symbols).Closed g mode)
    (hat : symbolAt? g.symbols n = some symbol) {expansion : Expansion}
    (hmem : expansion ∈ symbol.expansions)
    (hclaim : g.claims value expansion = true) :
    ∃ t ∈ firstAt g.symbols n, g.header.value? t = some value := by
  cases expansion with
  | nil => cases hclaim
  | cons leading names =>
      obtain ⟨token, htoken, t, hbegins, hvalue⟩ := claims_iff.mp hclaim
      have hright : token :: names.filterMap g.resolve ∈ g.rightSides n := by
        refine mem_rightSides.mpr ⟨symbol, hat, _, hmem, ?_⟩
        rw [List.filterMap_cons_some htoken]
      refine ⟨t, ?_, hvalue⟩
      cases token with
      | terminal id =>
          obtain ⟨-, rfl⟩ := hbegins
          exact hf.seeded hright
      | nonterminal k =>
          have hfirst := hbegins.resolve_right fun h => h.2
          exact hf.first hright (Or.inl hfirst)

/-! ## The branch of a value -/

theorem predicts_iff {b : Branch} :
    b.predicts value = true ↔ Offers b.predictions value := by
  simp only [Branch.predicts, List.any_eq_true, beq_iff_eq, Offers]

variable {symbol : String} {owned : Claims} {es : List (Expansion × Nat)}

/-- The first expansion that claims a value gets it. -/
theorem find?_branches (h : owned.lookup value = none) :
    ((g.branches symbol owned es).1.find? (·.predicts value)).map
        (fun b => (b.expansion, b.steps)) =
      (es.find? fun e => g.claims value e.1).map
        fun e => (e.2, g.steps 0 0 e.1) := by
  induction es generalizing owned with
  | nil => rfl
  | cons e es ih =>
      obtain ⟨expansion, index⟩ := e
      cases expansion with
      | nil =>
          rw [branches, List.find?_cons_of_neg (by simp [claims])]
          exact ih h
      | cons leading names =>
          obtain ⟨-, hfree, hpredicted⟩ := settle_of_free index
            (g.predicting leading) h
          rw [branches, List.find?_cons, List.find?_cons]
          rw [show Branch.predicts _ value = g.claims value (leading :: names) by
            rw [Bool.eq_iff_iff, predicts_iff, claims_cons, hpredicted]]
          cases hclaim : g.claims value (leading :: names) with
          | true => rfl
          | false =>
              rw [← Bool.not_eq_true, claims_cons] at hclaim
              exact ih (hfree hclaim)

/-! ## Without conflicts -/

theorem owner_of_claims (hconf : (g.branches symbol owned es).2 = [])
    {e : Expansion × Nat} (he : e ∈ es) (hclaim : g.claims value e.1 = true)
    {owner : Nat} (h : owned.lookup value = some owner) : owner = e.2 := by
  induction es generalizing owned with
  | nil => cases he
  | cons first es ih =>
      obtain ⟨expansion, index⟩ := first
      cases expansion with
      | nil =>
          rcases List.mem_cons.mp he with rfl | he
          · cases hclaim
          · exact ih hconf he h
      | cons leading names =>
          obtain ⟨hnow, hlater⟩ := List.append_eq_nil_iff.mp hconf
          rcases List.mem_cons.mp he with rfl | he
          · obtain ⟨terminal, hmem, rfl⟩ := claims_cons.mp hclaim
            refine Decidable.byContradiction fun hne => ?_
            have hrefused := mem_refused.mpr ⟨hmem, h, hne⟩
            rw [List.map_eq_nil_iff.mp hnow] at hrefused
            cases hrefused
          · exact ih hlater he (settle_of_owned _ _ h).1

theorem index_eq_of_claims_head {e e' : Expansion × Nat}
    (hconf : (g.branches symbol owned (e :: es)).2 = []) (he' : e' ∈ es)
    (hclaim : g.claims value e.1 = true)
    (hclaim' : g.claims value e'.1 = true) : e.2 = e'.2 := by
  obtain ⟨expansion, index⟩ := e
  cases expansion with
  | nil => cases hclaim
  | cons leading names =>
      -- Whoever owns the value after this expansion is this expansion.
      cases h : owned.lookup value with
      | none =>
          have hlater := (List.append_eq_nil_iff.mp hconf).2
          have hown := (settle_of_free index _ h).1
            (claims_cons.mp hclaim)
          exact owner_of_claims hlater he' hclaim' hown
      | some owner =>
          have hself := owner_of_claims hconf List.mem_cons_self hclaim h
          have hother := owner_of_claims hconf
            (List.mem_cons_of_mem _ he') hclaim' h
          exact hself.symm.trans hother

/-- Two expansions that claim a value are one. -/
theorem index_eq_of_claims (hconf : (g.branches symbol owned es).2 = [])
    {e e' : Expansion × Nat} (he : e ∈ es) (he' : e' ∈ es)
    (hclaim : g.claims value e.1 = true)
    (hclaim' : g.claims value e'.1 = true) : e.2 = e'.2 := by
  induction es generalizing owned with
  | nil => cases he
  | cons first es ih =>
      rcases List.mem_cons.mp he with heq | hrest
      · rcases List.mem_cons.mp he' with heq' | hrest'
        · rw [heq, heq']
        · subst heq
          exact index_eq_of_claims_head hconf hrest' hclaim hclaim'
      · rcases List.mem_cons.mp he' with heq' | hrest'
        · subst heq'
          exact (index_eq_of_claims_head hconf hrest hclaim' hclaim).symm
        · obtain ⟨expansion, index⟩ := first
          cases expansion with
          | nil => exact ih hconf hrest hrest'
          | cons leading names =>
              exact ih (List.append_eq_nil_iff.mp hconf).2 hrest hrest'

/-! ## Routines -/

section Routine

variable {settings : Settings} {name : String} {data : Symbol}

theorem find?_dispatch (g : Grammar) (name : String) (data : Symbol)
    (value : String) :
    ((g.dispatch name data).1.find? (·.predicts value)).map
        (fun b => (b.expansion, b.steps)) =
      (data.expansions.zipIdx.find? fun e => g.claims value e.1).map
        fun e => (e.2, g.steps 0 0 e.1) :=
  find?_branches rfl

/-- A branch that a value selects takes the steps of an expansion that claims
the value. -/
theorem exists_of_branchFor? {b : Branch}
    (h : (g.routine settings name data).branchFor? value = some b) :
    ∃ expansion ∈ data.expansions, g.claims value expansion = true ∧
      b.steps = g.steps 0 0 expansion := by
  have hfind : ((g.dispatch name data).1.find? (·.predicts value)) = some b := h
  have hfirst := g.find?_dispatch name data value
  rw [hfind, Option.map_some, eq_comm] at hfirst
  obtain ⟨e, hfound, heq⟩ := Option.map_eq_some_iff.mp hfirst
  injection heq with _ hsteps
  have hclaim := List.find?_some hfound
  exact ⟨e.1, List.fst_mem_of_mem_zipIdx (List.mem_of_find?_eq_some hfound),
    hclaim, hsteps.symm⟩

/-- Without conflicts, only one expansion of a symbol claims a value. -/
theorem expansion_eq_of_claims (hconf : (g.dispatch name data).2 = [])
    {expansion expansion' : Expansion} (hmem : expansion ∈ data.expansions)
    (hmem' : expansion' ∈ data.expansions)
    (hclaim : g.claims value expansion = true)
    (hclaim' : g.claims value expansion' = true) : expansion = expansion' := by
  obtain ⟨i, hi⟩ := List.getElem?_of_mem hmem
  obtain ⟨j, hj⟩ := List.getElem?_of_mem hmem'
  have hindex : i = j := index_eq_of_claims hconf
    (List.mk_mem_zipIdx_iff_getElem?.mpr hi)
    (List.mk_mem_zipIdx_iff_getElem?.mpr hj) hclaim hclaim'
  rw [← hindex, hi, Option.some.injEq] at hj
  exact hj

/-- Without conflicts, a value selects the branch of the expansion that claims
it. -/
theorem branchFor?_of_claims (hconf : (g.dispatch name data).2 = [])
    {expansion : Expansion} (hmem : expansion ∈ data.expansions)
    (hclaim : g.claims value expansion = true) :
    ∃ b, (g.routine settings name data).branchFor? value = some b ∧
      b.steps = g.steps 0 0 expansion := by
  obtain ⟨i, hi⟩ := List.getElem?_of_mem hmem
  have he : (expansion, i) ∈ data.expansions.zipIdx :=
    List.mk_mem_zipIdx_iff_getElem?.mpr hi
  have hfirst := g.find?_dispatch name data value
  cases hfound : data.expansions.zipIdx.find? fun e => g.claims value e.1 with
  | none => exact absurd hclaim (List.find?_eq_none.mp hfound _ he)
  | some e =>
      have he' := List.mem_of_find?_eq_some hfound
      have hclaim' := List.find?_some hfound
      have hunique := index_eq_of_claims hconf he' he hclaim' hclaim
      have hexpansion := List.mk_mem_zipIdx_iff_getElem?.mp he'
      rw [hunique, hi, Option.some.injEq] at hexpansion
      rw [hfound, Option.map_some] at hfirst
      obtain ⟨b, hb, heq⟩ := Option.map_eq_some_iff.mp hfirst
      injection heq with _ hsteps
      exact ⟨b, hb, by rw [hsteps, hexpansion]⟩

end Routine

end Grammar

end Descent
