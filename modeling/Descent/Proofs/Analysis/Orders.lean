import Descent.Proofs.Analysis.Result

/-!
# Every order of updates has the same result

The work queue is one order in which productions may be looked at. Any other
will do, as long as it goes on until no production changes anything: the facts
are then closed, and they have never gone beyond the least closed facts above
the start (`factsOf_updateAll`). This holds for whatever sets and marks the
symbols have to begin with.

Nor can an order change things for ever. Every change uses up some of the room
that the symbols have left, which is their slack without the weights that the
queue needs (`changes_add_room_le`). In particular the passes of a loop over all
productions come to an end (`roundRobin?_eq_some`), and so does a schedule that
is never without a production for good (`exists_stable_of_fair`).
-/

namespace Descent.Analysis

open FirstFacts Grammar

/-! ## Orders -/

/-- Looks at productions in the order of a list. -/
def updateAll (mode : Mode) (symbols : SymbolTable) (order : List Production) :
    SymbolTable :=
  order.foldl (fun symbols p => (updateFirst mode symbols p).1) symbols

/-- How many of these updates change something. -/
def changes (mode : Mode) : SymbolTable → List Production → Nat
  | _, [] => 0
  | symbols, p :: order =>
    let updated := updateFirst mode symbols p
    (if updated.2 then 1 else 0) + changes mode updated.1 order

/-- Makes passes over all productions until a pass changes nothing; `none` when
the budget of passes is too small. -/
def roundRobin? (mode : Mode) (all : List Production) :
    Nat → SymbolTable → Option SymbolTable
  | 0, _ => none
  | budget + 1, symbols =>
    let next := updateAll mode symbols all
    if changes mode symbols all = 0 then some next
    else roundRobin? mode all budget next

variable {g : Grammar} {mode : Mode} {symbols : SymbolTable}
  {order : List Production}

/-- Only productions of the grammar are looked at. -/
def Within (g : Grammar) (order : List Production) : Prop :=
  ∀ p ∈ order, p ∈ g.productionList

theorem Within.head {p : Production} (h : Within g (p :: order)) :
    p ∈ g.productionList := h p List.mem_cons_self

theorem Within.tail {p : Production} (h : Within g (p :: order)) :
    Within g order := fun q hq => h q (List.mem_cons_of_mem p hq)

theorem updateAll_cons {p : Production} :
    updateAll mode symbols (p :: order) =
      updateAll mode (updateFirst mode symbols p).1 order := rfl

theorem updateAll_append {order' : List Production} :
    updateAll mode symbols (order ++ order') =
      updateAll mode (updateAll mode symbols order) order' :=
  List.foldl_append

/-! ## What every order keeps -/

theorem outline_updateAll :
    outline (updateAll mode symbols order) = outline symbols := by
  induction order generalizing symbols with
  | nil => rfl
  | cons p order ih => rw [updateAll_cons, ih, outline_updateFirst]

section Bounds

variable (hout : outline symbols = outline g.symbols) (hin : Within g order)

include hout hin

theorem facts_le_updateAll :
    factsOf symbols ≤ factsOf (updateAll mode symbols order) := by
  induction order generalizing symbols with
  | nil => exact FirstFacts.le_refl _
  | cons p order ih =>
      have hown := owner_lt_of_outline hout hin.head
      exact FirstFacts.le_trans (facts_le_updateFirst hown)
        (ih (outline_updateFirst.trans hout) hin.tail)

theorem facts_updateAll_le {f : FirstFacts} (hc : f.Closed g mode)
    (hle : factsOf symbols ≤ f) :
    factsOf (updateAll mode symbols order) ≤ f := by
  induction order generalizing symbols with
  | nil => exact hle
  | cons p order ih =>
      exact ih (outline_updateFirst.trans hout) hin.tail
        (facts_updateFirst_le (owner_lt_of_outline hout hin.head) hin.head hc hle)

/-- Where nothing changes, the productions looked at are stable. -/
theorem updateAll_of_changes_eq_zero (h : changes mode symbols order = 0) :
    updateAll mode symbols order = symbols ∧
      ∀ p ∈ order, Stable mode (factsOf symbols) p := by
  induction order with
  | nil => exact ⟨rfl, fun p hp => absurd hp List.not_mem_nil⟩
  | cons p order ih =>
      have hown := owner_lt_of_outline hout hin.head
      rw [changes] at h
      obtain ⟨hhere, hthere⟩ := Nat.add_eq_zero_iff.mp h
      have hflag : (updateFirst mode symbols p).2 = false := by
        cases hflag : (updateFirst mode symbols p).2 with
        | false => rfl
        | true => rw [hflag] at hhere; cases hhere
      have hstable := (updateFirst_snd_eq_false_iff hown).mp hflag
      have hself := (updateFirst_eq_self_iff hout hin.head).mpr hstable
      rw [hself] at hthere
      obtain ⟨hsame, hrest⟩ := ih hin.tail hthere
      rw [updateAll_cons, hself]
      exact ⟨hsame, List.forall_mem_cons.mpr ⟨hstable, hrest⟩⟩

end Bounds

/-! ## Room for changes -/

/-- What all symbols together can still learn. -/
def room (g : Grammar) (terminals : TerminalSet) (symbols : SymbolTable) : Nat :=
  ∑ n ∈ Finset.range g.symbols.size, slack terminals symbols n

section Room

variable {terminals : TerminalSet}
  (hc : (factsWithin (· ∈ terminals)).Closed g mode)
  (hout : outline symbols = outline g.symbols)
  (hle : factsOf symbols ≤ factsWithin (· ∈ terminals))

include hc hout hle

theorem room_updateFirst {p : Production} (hp : p ∈ g.productionList) :
    (if (updateFirst mode symbols p).2 then 1 else 0) +
      room g terminals (updateFirst mode symbols p).1 ≤
        room g terminals symbols := by
  have hown := owner_lt_of_outline hout hp
  have hanti : ∀ n, slack terminals (updateFirst mode symbols p).1 n ≤
      slack terminals symbols n := slack_anti (facts_le_updateFirst hown)
  rw [Nat.add_comm]
  refine sum_add_le (owner_lt hp) hanti ?_
  split
  · next hflag =>
      exact slack_updateFirst_lt hown (facts_updateFirst_le hown hp hc hle) hflag
  · exact hanti p.owner

/-- The changes that an order makes fit into the room that there is. -/
theorem changes_add_room_le (hin : Within g order) :
    changes mode symbols order + room g terminals (updateAll mode symbols order) ≤
      room g terminals symbols := by
  induction order generalizing symbols with
  | nil => exact Nat.le_of_eq (Nat.zero_add _)
  | cons p order ih =>
      have hown := owner_lt_of_outline hout hin.head
      have hhere := room_updateFirst hc hout hle hin.head
      have hthere := ih (outline_updateFirst.trans hout)
        (facts_updateFirst_le hown hin.head hc hle) hin.tail
      rw [changes, updateAll_cons]
      omega

/-- The passes come to an end, in a table that one of the orders yields and that
no production changes. -/
theorem roundRobin?_eq_some {budget : Nat}
    (hbudget : room g terminals symbols < budget) :
    ∃ order, Within g order ∧
      roundRobin? mode g.productionList budget symbols =
        some (updateAll mode symbols order) ∧
      ∀ p ∈ g.productionList,
        Stable mode (factsOf (updateAll mode symbols order)) p := by
  induction budget generalizing symbols with
  | zero => exact absurd hbudget (Nat.not_lt_zero _)
  | succ budget ih =>
      have hall : Within g g.productionList := fun _ hp => hp
      rw [roundRobin?]
      split
      · next hzero =>
          obtain ⟨hsame, hstable⟩ := updateAll_of_changes_eq_zero hout hall hzero
          rw [← hsame] at hstable
          exact ⟨g.productionList, hall, rfl, hstable⟩
      · next hsome =>
          have hroom := changes_add_room_le hc hout hle hall
          obtain ⟨order, hin, hrun, hstable⟩ := ih
            (outline_updateAll.trans hout) (facts_updateAll_le hout hall hc hle)
            (by omega)
          refine ⟨g.productionList ++ order, ?_, ?_⟩
          · exact fun p hp => (List.mem_append.mp hp).elim (hall p) (hin p)
          · rw [updateAll_append]
            exact ⟨hrun, hstable⟩

end Room

/-! ## Schedules

A schedule goes on for ever. The room that is left gets smallest at some moment,
and from then on no update changes anything; if every production comes up again
after that moment, the table is one that no production changes. -/

/-- The table after the first updates of a schedule. -/
def scheduled (mode : Mode) (symbols : SymbolTable) (schedule : Nat → Production)
    (k : Nat) : SymbolTable :=
  updateAll mode symbols ((List.range k).map schedule)

variable {schedule : Nat → Production}

theorem scheduled_succ {k : Nat} :
    scheduled mode symbols schedule (k + 1) =
      (updateFirst mode (scheduled mode symbols schedule k) (schedule k)).1 := by
  rw [scheduled, List.range_succ, List.map_append, updateAll_append]
  rfl

theorem within_schedule (hin : ∀ i, schedule i ∈ g.productionList) (k : Nat) :
    Within g ((List.range k).map schedule) := by
  intro p hp
  obtain ⟨i, -, rfl⟩ := List.mem_map.mp hp
  exact hin i

section Schedule

variable {terminals : TerminalSet}
  (hc : (factsWithin (· ∈ terminals)).Closed g mode)
  (hout : outline symbols = outline g.symbols)
  (hle : factsOf symbols ≤ factsWithin (· ∈ terminals))
  (hin : ∀ i, schedule i ∈ g.productionList)

include hc hout hle hin

theorem room_scheduled_succ (k : Nat) :
    (if (updateFirst mode (scheduled mode symbols schedule k) (schedule k)).2
        then 1 else 0) +
      room g terminals (scheduled mode symbols schedule (k + 1)) ≤
        room g terminals (scheduled mode symbols schedule k) := by
  rw [scheduled_succ]
  exact room_updateFirst hc (outline_updateAll.trans hout)
    (facts_updateAll_le hout (within_schedule hin k) hc hle) (hin k)

/-- From some moment on, nothing changes and whatever comes up is stable. -/
theorem exists_rest : ∃ k, ∀ i, k ≤ i →
    scheduled mode symbols schedule i = scheduled mode symbols schedule k ∧
      Stable mode (factsOf (scheduled mode symbols schedule k)) (schedule i) := by
  let left (k : Nat) := room g terminals (scheduled mode symbols schedule k)
  have hstep := room_scheduled_succ hc hout hle hin
  have hanti : Antitone left := antitone_nat_of_succ_le fun k =>
    Nat.le_of_add_left_le (hstep k)
  have hmin : ∀ j, left (Function.argmin left) ≤ left j := fun j =>
    Function.argmin_le left j
  refine ⟨Function.argmin left, fun i hi => ?_⟩
  -- With no room used up at `i`, the update there has found its production stable.
  have hstable : ∀ i, Function.argmin left ≤ i →
      Stable mode (factsOf (scheduled mode symbols schedule i)) (schedule i) := by
    intro i hi
    have hhere := hstep i
    have hup : left i ≤ left (Function.argmin left) := hanti hi
    have hdown := hmin (i + 1)
    have hflag : (updateFirst mode (scheduled mode symbols schedule i)
        (schedule i)).2 = false := by
      cases hflag : (updateFirst mode (scheduled mode symbols schedule i)
          (schedule i)).2 with
      | false => rfl
      | true =>
          rw [hflag, if_pos rfl] at hhere
          simp only [left] at hup hdown
          omega
    exact (updateFirst_snd_eq_false_iff (owner_lt_of_outline
      (outline_updateAll.trans hout) (hin i))).mp hflag
  have hsame : scheduled mode symbols schedule i =
      scheduled mode symbols schedule (Function.argmin left) := by
    induction i, hi using Nat.le_induction with
    | base => rfl
    | succ i hi ih =>
        rw [scheduled_succ, ← ih]
        exact (updateFirst_eq_self_iff (outline_updateAll.trans hout)
          (hin i)).mpr (hstable i hi)
  exact ⟨hsame, hsame ▸ hstable i hi⟩

/-- A schedule in which every production comes up again and again comes to
rest. -/
theorem exists_stable_of_fair
    (hfair : ∀ p ∈ g.productionList, ∀ k, ∃ i, k ≤ i ∧ schedule i = p) :
    ∃ k, ∀ p ∈ g.productionList,
      Stable mode (factsOf (scheduled mode symbols schedule k)) p := by
  obtain ⟨k, hrest⟩ := exists_rest hc hout hle hin
  refine ⟨k, fun p hp => ?_⟩
  obtain ⟨i, hi, rfl⟩ := hfair p hp k
  exact (hrest i hi).2

end Schedule

/-! ## The result -/

theorem start_le_analysis :
    factsOf (seed g.productions g.symbols) ≤ factsOf (g.analysis mode).symbols := by
  rw [factsOf_analysis]
  exact start_le_firstSets

/-- An order that has come to rest has found the facts of the analysis. -/
theorem factsOf_updateAll (hin : Within g order)
    (hstable : ∀ p ∈ g.productionList, Stable mode
      (factsOf (updateAll mode (seed g.productions g.symbols) order)) p) :
    factsOf (updateAll mode (seed g.productions g.symbols) order) =
      factsOf (g.analysis mode).symbols := by
  have hle : factsOf (seed g.productions g.symbols) ≤
      factsOf (updateAll mode (seed g.productions g.symbols) order) :=
    facts_le_updateAll outline_seed hin
  refine FirstFacts.le_antisymm
    (facts_updateAll_le outline_seed hin closed_analysis start_le_analysis) ?_
  exact analysis_least (closed_of_stable hle hstable)
    (FirstFacts.le_trans start_le_facts hle)

/-! ## The least tables that nothing changes -/

/-- A table for a grammar that says what the grammar's own table says, has the
leading terminals of all productions in the FIRST sets, and is changed by no
update of FIRST. -/
structure FirstFixed (g : Grammar) (mode : Mode) (symbols : SymbolTable) :
    Prop where
  outline : outline symbols = outline g.symbols
  start : factsOf g.symbols ≤ factsOf symbols
  seeds : ∀ p ∈ g.productionList, ∀ t rest, p.right = .terminal t :: rest →
    t ∈ firstAt symbols p.owner
  fixed : ∀ p ∈ g.productionList, (updateFirst mode symbols p).1 = symbols

/-- A table for a grammar with what is in the FOLLOW sets of the grammar's own
table, and that no update of FOLLOW changes. -/
structure FollowFixed (g : Grammar) (symbols : SymbolTable) : Prop where
  outline : outline symbols = outline g.symbols
  start {n t : Nat} (h : t ∈ followAt g.symbols n) : t ∈ followAt symbols n
  fixed : ∀ p ∈ g.productionList,
    (updateFollow p.owner symbols p.right).1 = symbols

theorem FirstFixed.closed (h : FirstFixed g mode symbols) :
    (factsOf symbols).Closed g mode where
  seeded mem := by
    obtain ⟨p, hp, rfl, hright⟩ := mem_rightSides_iff.mp mem
    exact h.seeds p hp _ _ hright
  first mem hbegins := by
    obtain ⟨p, hp, rfl, rfl⟩ := mem_rightSides_iff.mp mem
    exact ((updateFirst_eq_self_iff h.outline hp).mp (h.fixed p hp)).first hbegins
  nullable mem hvanishes := by
    obtain ⟨p, hp, rfl, rfl⟩ := mem_rightSides_iff.mp mem
    exact ((updateFirst_eq_self_iff h.outline hp).mp
      (h.fixed p hp)).nullable hvanishes

theorem FollowFixed.closed (h : FollowFixed g symbols) :
    FollowClosed g (factsOf symbols) (followOfTable symbols) := by
  intro owner right mem
  obtain ⟨p, hp, rfl, rfl⟩ := mem_rightSides_iff.mp mem
  exact (updateFollow_eq_self_iff (covered_productionList h.outline p hp)).mp
    (h.fixed p hp)

theorem firstFixed_analysis : FirstFixed g mode (g.analysis mode).symbols where
  outline := outline_analysis
  start := FirstFacts.le_trans start_le_facts start_le_analysis
  seeds p hp t rest hright :=
    start_le_analysis.first
      (mem_firstAt_seed_of_mem (hright ▸ right_mem_rightSides hp))
  fixed p hp := by
    have mem := right_mem_rightSides hp
    exact (updateFirst_eq_self_iff outline_analysis hp).mpr
      ⟨closed_analysis.nullable mem, closed_analysis.first mem⟩

theorem followAt_le_analysis {n t : Nat} (h : t ∈ followAt g.symbols n) :
    t ∈ followAt (g.analysis .follow).symbols n := by
  refine followSets_preserves (P := fun symbols => t ∈ followAt symbols n)
    (fun _ h => followAt_followPass_of_mem h) ?_
  rw [followAt_firstSets]
  exact h

theorem followFixed_analysis : FollowFixed g (g.analysis .follow).symbols where
  outline := outline_analysis
  start := followAt_le_analysis
  fixed p hp :=
    (updateFollow_eq_self_iff (covered_productionList outline_analysis p hp)).mpr
      (followClosed_analysis p.owner p.right (right_mem_rightSides hp))

/-! ## The analysis and every other order -/

/-- What an analysis has to make of a grammar, whatever its symbols carry to
begin with and without a word about the order in which it works. -/
structure OrderFree (g : Grammar) (mode : Mode) (a : Grammar) : Prop where
  header : a.header = g.header
  userCode : a.userCode = g.userCode
  /-- The same symbols in the same order, with the same expansions. -/
  outline : Analysis.outline a.symbols = Analysis.outline g.symbols
  fixed : FirstFixed g mode a.symbols
  least : ∀ symbols, FirstFixed g mode symbols →
    factsOf a.symbols ≤ factsOf symbols
  /-- No order makes more than a certain number of changes. -/
  bounded : ∃ bound, ∀ order, Within g order →
    changes mode (seed g.productions g.symbols) order ≤ bound
  /-- An order after which no update changes anything has found the same facts. -/
  orders : ∀ order, Within g order →
    (∀ p ∈ g.productionList,
      (updateFirst mode (updateAll mode (seed g.productions g.symbols) order) p).1 =
        updateAll mode (seed g.productions g.symbols) order) →
    factsOf (updateAll mode (seed g.productions g.symbols) order) = factsOf a.symbols
  /-- A schedule in which every production comes up again and again gets there. -/
  schedules : ∀ schedule : Nat → Production,
    (∀ i, schedule i ∈ g.productionList) →
    (∀ p ∈ g.productionList, ∀ k, ∃ i, k ≤ i ∧ schedule i = p) →
    ∃ k, factsOf (scheduled mode (seed g.productions g.symbols) schedule k) =
      factsOf a.symbols
  /-- So does the loop of passes over all productions, which comes to an end. -/
  passes : ∃ enough, ∀ budget, enough ≤ budget → ∃ symbols,
    roundRobin? mode g.productionList budget (seed g.productions g.symbols) =
      some symbols ∧ factsOf symbols = factsOf a.symbols
  followKept : mode = .firstOnly →
    ∀ n, followAt a.symbols n = followAt g.symbols n
  followFixed : mode = .follow → FollowFixed g a.symbols
  followLeast : mode = .follow → ∀ symbols, FollowFixed g symbols →
    factsOf symbols = factsOf a.symbols →
    ∀ n t, t ∈ followAt a.symbols n → t ∈ followAt symbols n

theorem seeded_le_within : factsOf (seed g.productions g.symbols) ≤
    factsWithin (· ∈ firstUniverse g.productions
      (seed g.productions g.symbols)) := factsOf_le_within _

theorem exists_bound_of_changes : ∃ bound, ∀ order, Within g order →
    changes mode (seed g.productions g.symbols) order ≤ bound :=
  ⟨_, fun _ hin => Nat.le_of_add_right_le
    (changes_add_room_le firstUniverse_closed outline_seed seeded_le_within hin)⟩

theorem exists_scheduled {schedule : Nat → Production}
    (hin : ∀ i, schedule i ∈ g.productionList)
    (hfair : ∀ p ∈ g.productionList, ∀ k, ∃ i, k ≤ i ∧ schedule i = p) :
    ∃ k, factsOf (scheduled mode (seed g.productions g.symbols) schedule k) =
      factsOf (g.analysis mode).symbols := by
  obtain ⟨k, hstable⟩ := exists_stable_of_fair firstUniverse_closed outline_seed
    seeded_le_within hin hfair
  exact ⟨k, factsOf_updateAll (within_schedule hin k) hstable⟩

theorem exists_passes : ∃ enough, ∀ budget, enough ≤ budget → ∃ symbols,
    roundRobin? mode g.productionList budget (seed g.productions g.symbols) =
      some symbols ∧ factsOf symbols = factsOf (g.analysis mode).symbols := by
  refine ⟨room g (firstUniverse g.productions (seed g.productions g.symbols))
    (seed g.productions g.symbols) + 1, fun budget hbudget => ?_⟩
  obtain ⟨order, hin, hrun, hstable⟩ := roundRobin?_eq_some
    firstUniverse_closed outline_seed seeded_le_within hbudget
  exact ⟨_, hrun, factsOf_updateAll hin hstable⟩

/-- From any marks and sets to begin with, an analysis ends with the least
table that no update changes, and every other order of updates ends there too. -/
theorem analyze_orderFree (hvalid : g.fault? = none) :
    ∃ a, g.analyze mode = .ok a ∧ OrderFree g mode a := by
  refine ⟨_, analyze_of_valid hvalid, ?_⟩
  constructor
  case header => rfl
  case userCode => rfl
  case outline => exact outline_analysis
  case fixed => exact firstFixed_analysis
  case least => exact fun symbols h => analysis_least h.closed h.start
  case bounded => exact exists_bound_of_changes
  case orders =>
    intro order hin hfixed
    refine factsOf_updateAll hin fun p hp => ?_
    exact (updateFirst_eq_self_iff (outline_updateAll.trans outline_seed) hp).mp
      (hfixed p hp)
  case schedules => exact fun _ hin hfair => exists_scheduled hin hfair
  case passes => exact exists_passes
  case followKept =>
    rintro rfl n
    exact followAt_analysis_firstOnly n
  case followFixed =>
    rintro rfl
    exact followFixed_analysis
  case followLeast =>
    rintro rfl symbols h hfacts
    exact follow_analysis_least (hfacts ▸ h.closed) fun n t ht => h.start ht

/-- A grammar that carries marks and sets that no analysis of it would find. -/
def staleGrammar : Grammar where
  header := { terminals := (∅ : Table String String).insert "X" "x" }
  symbols := (Table.empty.insert "a"
    { expansions := [["b", "X"], ["a", "b"]], first := .ofList [7] }).insert "b"
    { expansions := [["a"]], marked := true, follow := .ofList [5] }

theorem analyze_orderFree_stale :
    staleGrammar.fault? = none ∧ ∃ a, staleGrammar.analyze .follow = .ok a ∧
      OrderFree staleGrammar .follow a :=
  ⟨rfl, analyze_orderFree rfl⟩

end Descent.Analysis
