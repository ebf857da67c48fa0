import Mathlib.Algebra.BigOperators.Ring.Finset
import Mathlib.Algebra.Order.BigOperators.Group.Finset
import Descent.Analysis.Basic
import Descent.Proofs.Analysis.SameTable
import Descent.Proofs.Queue
import Descent.Proofs.TerminalSet

/-!
# The work queue reaches the least closed facts

Three invariants carry the loop for nullability and FIRST.

The facts of the table never go beyond closed facts that are above the start,
because a step adds only what a right side says. A production that is not
waiting is stable: the step that could have disturbed it changed a symbol that
it mentions, and so has queued it again. And the budget lasts: the potential

  waiting productions + Σ users · (terminals still missing + not yet nullable)

goes down by at least one with every step, because a step that queues the users
of a symbol has taken one unit off what is missing there.

When the loop is over the queue is therefore empty, so every production is
stable, and the table states exactly the least closed facts above the start
(`firstSets_closed`, `firstSets_least`).
-/

namespace Descent.Analysis

open FirstFacts Grammar

variable {g : Grammar} {mode : Mode}

/-! ## One update -/

theorem facts_le_updateFirst {symbols : SymbolTable} {p : Production}
    (hown : p.owner < symbols.size) :
    factsOf symbols ≤ factsOf (updateFirst mode symbols p).1 :=
  ⟨fun h => (nullable_updateFirst hown).mpr (Or.inl h),
    fun h => (first_updateFirst hown).mpr (Or.inl h)⟩

/-- An update does not go beyond closed facts. -/
theorem facts_updateFirst_le {symbols : SymbolTable} {p : Production}
    (hown : p.owner < symbols.size) (hp : p ∈ g.productionList) {f : FirstFacts}
    (hc : f.Closed g mode) (hle : factsOf symbols ≤ f) :
    factsOf (updateFirst mode symbols p).1 ≤ f := by
  have mem := right_mem_rightSides hp
  constructor
  · intro n hn
    rcases (nullable_updateFirst hown).mp hn with hold | ⟨rfl, hvanishes⟩
    · exact hle.nullable hold
    · exact hc.nullable mem (hvanishes.mono hle)
  · intro n t ht
    rcases (first_updateFirst hown).mp ht with hold | ⟨rfl, hbegins⟩
    · exact hle.first hold
    · exact hc.first mem (hbegins.mono hle)

/-! ## Steps and runs -/

/-- What a step does: the next production updates its owner, and if it has taught
the owner something the owner's users are queued. -/
theorem Worklist.step?_eq_some {ps : Productions} {w next : Worklist}
    (h : w.step? mode ps = some next) :
    ∃ p rest, w.pending.pop? = some (p, rest) ∧
      next.symbols = (updateFirst mode w.symbols p).1 ∧
      next.steps = w.steps + 1 ∧
      next.pending = if (updateFirst mode w.symbols p).2 then
        rest.pushAll (ps.users p.owner) else rest := by
  obtain ⟨⟨p, rest⟩, hpop, rfl⟩ := Option.map_eq_some_iff.mp h
  exact ⟨p, rest, hpop, rfl, rfl, rfl⟩

theorem Worklist.step?_eq_none {ps : Productions} {w : Worklist}
    (h : w.step? mode ps = none) : w.pending.toList = [] :=
  Queue.pop?_eq_none_iff.mp (Option.map_eq_none_iff.mp h)

/-- A run keeps what every step keeps. -/
theorem Worklist.run_preserves {ps : Productions} {P : Worklist → Prop}
    (hstep : ∀ w next, P w → w.step? mode ps = some next → P next) :
    ∀ {budget : Nat} {w : Worklist}, P w → P (run mode ps budget w) := by
  intro budget
  induction budget with
  | zero => intro w h; exact h
  | succ budget ih =>
      intro w h
      rw [run]
      split
      · next next hnext => exact ih (hstep w next h hnext)
      · exact h

/-- A run whose budget covers a measure that goes down with every step ends with
nothing waiting. -/
theorem Worklist.run_drained {ps : Productions} {P : Worklist → Prop}
    (measure : Worklist → Nat)
    (hstep : ∀ w next, P w → w.step? mode ps = some next →
      P next ∧ measure next + 1 ≤ measure w) :
    ∀ {budget : Nat} {w : Worklist}, P w → measure w ≤ budget →
      (run mode ps budget w).pending.toList = [] := by
  intro budget
  induction budget with
  | zero =>
      intro w h hle
      rw [run]
      cases hnext : w.step? mode ps with
      | none => exact step?_eq_none hnext
      | some next =>
          have hdown := (hstep w next h hnext).2
          omega
  | succ budget ih =>
      intro w h hle
      rw [run]
      split
      · next next hnext =>
          obtain ⟨hP, hdown⟩ := hstep w next h hnext
          exact ih hP (by omega)
      · next hnext => exact step?_eq_none hnext

/-! ## The shape of the state -/

/-- All along, the symbols keep their names and expansions, and only productions
of the grammar wait. -/
structure Running (g : Grammar) (w : Worklist) : Prop where
  outline : outline w.symbols = outline g.symbols
  pending : ∀ p ∈ w.pending.toList, p ∈ g.productionList

theorem Running.owner_lt {w : Worklist} (h : Running g w) {p : Production}
    (hp : p ∈ g.productionList) : p.owner < w.symbols.size :=
  owner_lt_of_outline h.outline hp

/-- The users of the owner of a production, as they are queued. -/
theorem users_owner {p : Production} (hp : p ∈ g.productionList) :
    g.productions.users p.owner =
      g.productionList.filter fun q => .nonterminal p.owner ∈ q.right :=
  Productions.users_eq_filter (Grammar.owner_lt hp)

theorem Running.next {w next : Worklist} (h : Running g w)
    (hnext : w.step? mode g.productions = some next) : Running g next := by
  obtain ⟨p, rest, hpop, hsymbols, -, hpending⟩ := Worklist.step?_eq_some hnext
  have hlist := Queue.toList_of_pop?_eq_some hpop
  have hrest : ∀ q ∈ rest.toList, q ∈ g.productionList := fun q hq =>
    h.pending q (by rw [hlist]; exact List.mem_cons_of_mem p hq)
  have hp : p ∈ g.productionList :=
    h.pending p (by rw [hlist]; exact List.mem_cons_self)
  refine ⟨by rw [hsymbols, outline_updateFirst, h.outline], fun q hq => ?_⟩
  rw [hpending] at hq
  split at hq
  · rcases Queue.mem_pushAll.mp hq with hq | hq
    · exact hrest q hq
    · rw [users_owner hp] at hq
      exact (List.mem_filter.mp hq).1
  · exact hrest q hq

/-- The production that a step takes, with what the step makes of the facts. -/
theorem Running.taken {w next : Worklist} (h : Running g w)
    (hnext : w.step? mode g.productions = some next) :
    ∃ p ∈ g.productionList,
      (∃ rest, w.pending.pop? = some (p, rest) ∧
        next.pending = if (updateFirst mode w.symbols p).2 then
          rest.pushAll (g.productions.users p.owner) else rest) ∧
      next.symbols = (updateFirst mode w.symbols p).1 ∧
      (∀ n, (factsOf next.symbols).nullable n ↔
        (factsOf w.symbols).nullable n ∨
          n = p.owner ∧ (factsOf w.symbols).Vanishes p.right) ∧
      ∀ n t, (factsOf next.symbols).first n t ↔
        (factsOf w.symbols).first n t ∨
          n = p.owner ∧ (factsOf w.symbols).Begins mode p.right t := by
  obtain ⟨p, rest, hpop, hsymbols, -, hpending⟩ := Worklist.step?_eq_some hnext
  have hp : p ∈ g.productionList := h.pending p (by
    rw [Queue.toList_of_pop?_eq_some hpop]
    exact List.mem_cons_self)
  refine ⟨p, hp, ⟨rest, hpop, hpending⟩, hsymbols, ?_, ?_⟩
  · intro n
    rw [hsymbols]
    exact nullable_updateFirst (h.owner_lt hp)
  · intro n t
    rw [hsymbols]
    exact first_updateFirst (h.owner_lt hp)

theorem Running.facts_le {w next : Worklist} (h : Running g w)
    (hnext : w.step? mode g.productions = some next) :
    factsOf w.symbols ≤ factsOf next.symbols := by
  obtain ⟨p, hp, -, hsymbols, -, -⟩ := h.taken hnext
  rw [hsymbols]
  exact facts_le_updateFirst (h.owner_lt hp)

/-! ## Never beyond closed facts -/

theorem Running.next_facts_le {w next : Worklist} (h : Running g w)
    (hnext : w.step? mode g.productions = some next) {f : FirstFacts}
    (hc : f.Closed g mode) (hle : factsOf w.symbols ≤ f) :
    factsOf next.symbols ≤ f := by
  obtain ⟨p, hp, -, hsymbols, -, -⟩ := h.taken hnext
  rw [hsymbols]
  exact facts_updateFirst_le (h.owner_lt hp) hp hc hle

/-! ## Stability -/

/-- Every production is waiting or stable. -/
def Settled (g : Grammar) (mode : Mode) (w : Worklist) : Prop :=
  ∀ q ∈ g.productionList,
    q ∈ w.pending.toList ∨ Stable mode (factsOf w.symbols) q

theorem Running.next_settled {w next : Worklist} (h : Running g w)
    (hnext : w.step? mode g.productions = some next)
    (hsettled : Settled g mode w) : Settled g mode next := by
  obtain ⟨p, hp, ⟨rest, hpop, hpending⟩, -, hnull, hfirst⟩ := h.taken hnext
  have hlist := Queue.toList_of_pop?_eq_some hpop
  have hown := h.owner_lt hp
  intro q hq
  by_cases hwait : q ∈ next.pending.toList
  · exact Or.inl hwait
  refine Or.inr ?_
  -- A production that does not wait now did not wait before, unless it is `p`.
  have hbefore : q = p ∨ Stable mode (factsOf w.symbols) q := by
    rcases hsettled q hq with hold | hstable
    · rw [hlist] at hold
      rcases List.mem_cons.mp hold with heq | hrest
      · exact Or.inl heq
      · refine absurd ?_ hwait
        rw [hpending]
        split
        · exact Queue.mem_pushAll.mpr (Or.inl hrest)
        · exact hrest
    · exact Or.inr hstable
  -- What it mentions has not changed, or it would have been queued.
  have hsame : (factsOf next.symbols).LeOn (factsOf w.symbols) q.right := by
    intro n hn
    by_cases hflag : (updateFirst mode w.symbols p).2 = true
    · have hne : n ≠ p.owner := by
        intro heq
        refine hwait ?_
        rw [hpending, if_pos hflag, Queue.mem_pushAll, users_owner hp]
        exact Or.inr (List.mem_filter.mpr ⟨hq, by
          rw [decide_eq_true_eq, ← heq]
          exact hn⟩)
      exact ⟨fun h => ((hnull n).mp h).resolve_right fun h' => hne h'.1,
        fun t h => ((hfirst n t).mp h).resolve_right fun h' => hne h'.1⟩
    · rw [Bool.not_eq_true, updateFirst_snd_eq_false_iff hown] at hflag
      constructor
      · intro h
        rcases (hnull n).mp h with hold | ⟨rfl, hvanishes⟩
        · exact hold
        · exact hflag.nullable hvanishes
      · intro t h
        rcases (hfirst n t).mp h with hold | ⟨rfl, hbegins⟩
        · exact hold
        · exact hflag.first hbegins
  constructor
  · intro hvanishes
    have hvanishes := hvanishes.mono_on hsame
    rcases hbefore with rfl | hstable
    · exact (hnull _).mpr (Or.inr ⟨rfl, hvanishes⟩)
    · exact (hnull _).mpr (Or.inl (hstable.nullable hvanishes))
  · intro t hbegins
    have hbegins := hbegins.mono_on hsame
    rcases hbefore with rfl | hstable
    · exact (hfirst _ _).mpr (Or.inr ⟨rfl, hbegins⟩)
    · exact (hfirst _ _).mpr (Or.inl (hstable.first hbegins))

/-! ## The budget lasts

The terminals that can get into a FIRST set are a universe that no step leaves.
That is the invariant `Running.next_facts_le` once more, for the facts in which
every symbol is nullable and begins with every terminal of the universe. -/

theorem terminal_mem_universe {sets : List TerminalSet} {n t : Nat}
    {right : List Token} (mem : right ∈ g.rightSides n)
    (ht : .terminal t ∈ right) :
    t ∈ sets.foldl (· ∪ ·) (.ofList (g.productions.all.flatMap fun p =>
      p.right.filterMap Token.terminal?)) := by
  obtain ⟨p, hp, -, rfl⟩ := mem_rightSides_iff.mp mem
  refine TerminalSet.mem_foldl_union.mpr (Or.inl (TerminalSet.mem_ofList.mpr ?_))
  exact List.mem_flatMap.mpr ⟨p, hp, List.mem_filterMap.mpr ⟨_, ht, rfl⟩⟩

theorem firstUniverse_closed {symbols : SymbolTable} :
    (factsWithin (· ∈ firstUniverse g.productions symbols)).Closed g mode :=
  factsWithin_closed fun mem _ ht => terminal_mem_universe mem ht

theorem factsOf_le_within (symbols : SymbolTable) :
    factsOf symbols ≤ factsWithin (· ∈ firstUniverse g.productions symbols) := by
  refine ⟨fun _ => trivial, ?_⟩
  intro n t ht
  refine TerminalSet.mem_foldl_union.mpr (Or.inr ?_)
  have ht : t ∈ firstAt symbols n := ht
  unfold firstAt at ht
  cases hat : symbolAt? symbols n with
  | none =>
      rw [hat] at ht
      exact absurd ht TerminalSet.not_mem_empty
  | some symbol =>
      rw [hat] at ht
      exact ⟨symbol.first,
        List.mem_map.mpr ⟨symbol, mem_values_of_symbolAt hat, rfl⟩, ht⟩

/-- What a symbol can still learn: the terminals missing from its FIRST set, and
that it is nullable. -/
def slack (terminals : TerminalSet) (symbols : SymbolTable) (n : Nat) : Nat :=
  (terminals.size - (firstAt symbols n).size) +
    if nullableAt symbols n then 0 else 1

theorem slack_le (terminals : TerminalSet) (symbols : SymbolTable) (n : Nat) :
    slack terminals symbols n ≤ terminals.size + 1 := by
  unfold slack
  split <;> omega

theorem slack_anti {terminals : TerminalSet} {symbols symbols' : SymbolTable}
    (hle : factsOf symbols ≤ factsOf symbols') (n : Nat) :
    slack terminals symbols' n ≤ slack terminals symbols n := by
  have hsize : (firstAt symbols n).size ≤ (firstAt symbols' n).size :=
    TerminalSet.size_le_of_subset fun _ h => hle.first h
  have hnull : nullableAt symbols n = true → nullableAt symbols' n = true :=
    hle.nullable
  unfold slack
  split <;> split
  · omega
  · omega
  · next hnot hold => exact absurd (hnull hold) hnot
  · omega

theorem slack_lt {terminals : TerminalSet} {symbols symbols' : SymbolTable}
    (hle : factsOf symbols ≤ factsOf symbols')
    (hin : factsOf symbols' ≤ factsWithin (· ∈ terminals)) {n : Nat}
    (hnew : (∃ t, t ∈ firstAt symbols' n ∧ ¬ t ∈ firstAt symbols n) ∨
      nullableAt symbols' n = true ∧ ¬ nullableAt symbols n = true) :
    slack terminals symbols' n + 1 ≤ slack terminals symbols n := by
  have hsize : (firstAt symbols n).size ≤ (firstAt symbols' n).size :=
    TerminalSet.size_le_of_subset fun _ h => hle.first h
  have hsize' : (firstAt symbols' n).size ≤ terminals.size :=
    TerminalSet.size_le_of_subset fun _ h => hin.first h
  have hnull : nullableAt symbols n = true → nullableAt symbols' n = true :=
    hle.nullable
  unfold slack
  rcases hnew with ⟨t, ht, hnot⟩ | ⟨hthen, hbefore⟩
  · have hlt : (firstAt symbols n).size < (firstAt symbols' n).size :=
      TerminalSet.size_lt_of_subset (fun _ h => hle.first h) ht hnot
    split <;> split
    · omega
    · omega
    · next hnot hold => exact absurd (hnull hold) hnot
    · omega
  · rw [if_pos hthen, if_neg hbefore]
    omega

/-- With its flag up, an update uses up some of what its owner can still
learn. -/
theorem slack_updateFirst_lt {terminals : TerminalSet} {symbols : SymbolTable}
    {p : Production} (hown : p.owner < symbols.size)
    (hin : factsOf (updateFirst mode symbols p).1 ≤
      factsWithin (· ∈ terminals))
    (hflag : (updateFirst mode symbols p).2 = true) :
    slack terminals (updateFirst mode symbols p).1 p.owner + 1 ≤
      slack terminals symbols p.owner := by
  refine slack_lt (facts_le_updateFirst hown) hin ?_
  rcases (updateFirst_snd_iff hown).mp hflag with
    ⟨t, hbegins, hnot⟩ | ⟨hvanishes, hnot⟩
  · exact Or.inl ⟨t, (first_updateFirst hown).mpr (Or.inr ⟨rfl, hbegins⟩), hnot⟩
  · exact Or.inr ⟨(nullable_updateFirst hown).mpr (Or.inr ⟨rfl, hvanishes⟩), hnot⟩

/-- What all symbols together can still cause, each weighed by its users. -/
def potential (g : Grammar) (terminals : TerminalSet) (symbols : SymbolTable) :
    Nat :=
  ∑ n ∈ Finset.range g.symbols.size,
    (g.productions.users n).length * slack terminals symbols n

/-- A sum loses what one of its terms loses. -/
theorem sum_add_le {size o c : Nat} {before after : Nat → Nat} (ho : o < size)
    (hle : ∀ n, after n ≤ before n) (hlt : after o + c ≤ before o) :
    ∑ n ∈ Finset.range size, after n + c ≤ ∑ n ∈ Finset.range size, before n := by
  have hmem : o ∈ Finset.range size := Finset.mem_range.mpr ho
  have hrest : ∑ n ∈ (Finset.range size).erase o, after n ≤
      ∑ n ∈ (Finset.range size).erase o, before n :=
    Finset.sum_le_sum fun n _ => hle n
  have hafter := Finset.add_sum_erase _ after hmem
  have hbefore := Finset.add_sum_erase _ before hmem
  omega

theorem potential_anti {terminals : TerminalSet}
    {symbols symbols' : SymbolTable} (hle : factsOf symbols ≤ factsOf symbols') :
    potential g terminals symbols' ≤ potential g terminals symbols :=
  Finset.sum_le_sum fun n _ => Nat.mul_le_mul_left _ (slack_anti hle n)

/-- Every step uses up at least one unit of what waits and may still wait. -/
theorem Running.next_measure {w next : Worklist} (h : Running g w)
    (hnext : w.step? mode g.productions = some next) {terminals : TerminalSet}
    (hin : factsOf next.symbols ≤ factsWithin (· ∈ terminals)) :
    next.pending.size + potential g terminals next.symbols + 1 ≤
      w.pending.size + potential g terminals w.symbols := by
  have hle := h.facts_le hnext
  obtain ⟨p, hp, ⟨rest, hpop, hpending⟩, hsymbols, -, -⟩ := h.taken hnext
  have hsize := Queue.size_of_pop? hpop
  rw [hpending]
  split
  · next hflag =>
      have hslack : slack terminals next.symbols p.owner + 1 ≤
          slack terminals w.symbols p.owner := by
        rw [hsymbols] at hin ⊢
        exact slack_updateFirst_lt (h.owner_lt hp) hin hflag
      have hmul := Nat.mul_le_mul_left
        (g.productions.users p.owner).length hslack
      rw [Nat.mul_add, Nat.mul_one] at hmul
      have hsum : potential g terminals next.symbols +
          (g.productions.users p.owner).length ≤
          potential g terminals w.symbols :=
        sum_add_le (Grammar.owner_lt hp)
          (fun n => Nat.mul_le_mul_left _ (slack_anti hle n)) hmul
      have hpush : (rest.pushAll (g.productions.users p.owner)).size ≤
          rest.size + (g.productions.users p.owner).length :=
        Queue.size_pushAll_le
      omega
  · have hsum : potential g terminals next.symbols ≤
        potential g terminals w.symbols := potential_anti hle
    omega

theorem length_flatten_userIndex :
    g.productions.userIndex.flatten.length =
      ∑ n ∈ Finset.range g.symbols.size, (g.productions.users n).length := by
  have hsum : ∀ index : List (List Production),
      index.flatten.length =
        ∑ n ∈ Finset.range index.length, (index[n]?.getD []).length := by
    intro index
    induction index with
    | nil => rfl
    | cons users index ih =>
        rw [List.flatten_cons, List.length_append, ih, List.length_cons,
          Finset.sum_range_succ', Nat.add_comm]
        rfl
  rw [hsum, productions, Productions.length_userIndex]
  rfl

theorem potential_le {terminals : TerminalSet} {symbols : SymbolTable} :
    potential g terminals symbols ≤
      g.productions.userIndex.flatten.length * (terminals.size + 1) := by
  rw [length_flatten_userIndex, Finset.sum_mul]
  exact Finset.sum_le_sum fun n _ =>
    Nat.mul_le_mul_left _ (slack_le terminals symbols n)

/-! ## The result -/

/-- The state in which the loop starts. -/
def firstStart (g : Grammar) : Worklist where
  pending := .ofList g.productionList
  symbols := seed g.productions g.symbols

theorem firstSets_eq : firstSets mode g.productions g.symbols =
    .run mode g.productions
      (firstBudget g.productions (seed g.productions g.symbols)) (firstStart g) :=
  rfl

theorem running_start : Running g (firstStart g) where
  outline := outline_seed
  pending _ hp := Queue.mem_ofList.mp hp

theorem facts_start_le {f : FirstFacts} (hc : f.Closed g mode)
    (hle : factsOf g.symbols ≤ f) : factsOf (firstStart g).symbols ≤ f := by
  constructor
  · intro n hn
    have hn : nullableAt (seed g.productions g.symbols) n = true := hn
    rw [nullableAt_seed] at hn
    exact hle.nullable hn
  · intro n t ht
    rcases (mem_firstAt_seed fun _ => Grammar.owner_lt).mp ht with
      hold | ⟨p, hp, rfl, rest, hright⟩
    · exact hle.first hold
    · exact hc.seeded (hright ▸ right_mem_rightSides hp)

theorem start_le_facts : factsOf g.symbols ≤ factsOf (firstStart g).symbols := by
  constructor
  · intro n hn
    show nullableAt (seed g.productions g.symbols) n = true
    rw [nullableAt_seed]
    exact hn
  · intro n t ht
    exact (mem_firstAt_seed fun _ => Grammar.owner_lt).mpr (Or.inl ht)

theorem mem_firstAt_seed_of_mem {n t : Nat} {rest : List Token}
    (mem : .terminal t :: rest ∈ g.rightSides n) :
    t ∈ firstAt (seed g.productions g.symbols) n := by
  obtain ⟨p, hp, rfl, hright⟩ := mem_rightSides_iff.mp mem
  exact (mem_firstAt_seed fun _ => Grammar.owner_lt).mpr
    (Or.inr ⟨p, hp, rfl, rest, hright⟩)

/-- Facts above the start are closed when every production is stable. -/
theorem closed_of_stable {f : FirstFacts}
    (hle : factsOf (seed g.productions g.symbols) ≤ f)
    (hstable : ∀ p ∈ g.productionList, Stable mode f p) : f.Closed g mode where
  seeded mem := hle.first (mem_firstAt_seed_of_mem mem)
  first mem h := by
    obtain ⟨p, hp, rfl, rfl⟩ := mem_rightSides_iff.mp mem
    exact (hstable p hp).first h
  nullable mem h := by
    obtain ⟨p, hp, rfl, rfl⟩ := mem_rightSides_iff.mp mem
    exact (hstable p hp).nullable h

theorem settled_start : Settled g mode (firstStart g) :=
  fun _ hq => Or.inl (Queue.mem_ofList.mpr hq)

theorem running_firstSets :
    Running g (firstSets mode g.productions g.symbols) :=
  Worklist.run_preserves (fun _ _ h hnext => h.next hnext) running_start

/-- What every step of a run over the grammar keeps holds in the end. -/
theorem firstSets_preserves {P : Worklist → Prop}
    (hstep : ∀ w next, Running g w → P w →
      w.step? mode g.productions = some next → P next)
    (hstart : P (firstStart g)) :
    P (firstSets mode g.productions g.symbols) := by
  rw [firstSets_eq]
  have hboth : ∀ w next, Running g w ∧ P w →
      w.step? mode g.productions = some next → Running g next ∧ P next :=
    fun w next h hnext => ⟨h.1.next hnext, hstep w next h.1 h.2 hnext⟩
  exact (Worklist.run_preserves hboth ⟨running_start, hstart⟩).2

theorem outline_firstSets :
    outline (firstSets mode g.productions g.symbols).symbols =
      outline g.symbols :=
  running_firstSets.outline

/-- FOLLOW is left alone. -/
theorem followAt_firstSets (n : Nat) :
    followAt (firstSets mode g.productions g.symbols).symbols n =
      followAt g.symbols n := by
  refine Worklist.run_preserves
    (P := fun w => followAt w.symbols n = followAt g.symbols n) ?_ followAt_seed
  intro w next h hnext
  obtain ⟨p, rest, -, hsymbols, -, -⟩ := Worklist.step?_eq_some hnext
  rw [hsymbols, followAt_updateFirst, h]

/-- The table is below all closed facts that are above the start. -/
theorem firstSets_least {f : FirstFacts} (hc : f.Closed g mode)
    (hle : factsOf g.symbols ≤ f) :
    factsOf (firstSets mode g.productions g.symbols).symbols ≤ f := by
  refine firstSets_preserves (P := fun w => factsOf w.symbols ≤ f) ?_
    (facts_start_le hc hle)
  intro w next hrunning h hnext
  exact hrunning.next_facts_le hnext hc h

theorem start_le_firstSets :
    factsOf (firstStart g).symbols ≤
      factsOf (firstSets mode g.productions g.symbols).symbols := by
  refine firstSets_preserves
    (P := fun w => factsOf (firstStart g).symbols ≤ factsOf w.symbols) ?_
    (le_refl _)
  intro w next hrunning h hnext
  exact FirstFacts.le_trans h (hrunning.facts_le hnext)

/-- The loop ends because nothing waits, not because the budget is spent. -/
theorem pending_firstSets :
    (firstSets mode g.productions g.symbols).pending.toList = [] := by
  have hclosed : (factsWithin (· ∈ firstUniverse g.productions
      (seed g.productions g.symbols))).Closed g mode := firstUniverse_closed
  refine Worklist.run_drained
    (P := fun w => Running g w ∧ factsOf w.symbols ≤
      factsWithin
        (· ∈ firstUniverse g.productions (seed g.productions g.symbols)))
    (fun w => w.pending.size + potential g
      (firstUniverse g.productions (seed g.productions g.symbols)) w.symbols)
    ?_ ⟨running_start, factsOf_le_within _⟩ ?_
  · intro w next h hnext
    have hin := h.1.next_facts_le hnext hclosed h.2
    exact ⟨⟨h.1.next hnext, hin⟩, h.1.next_measure hnext hin⟩
  · exact Nat.add_le_add Queue.size_ofList_le potential_le

/-- In the end no right side adds to the facts of the table. -/
theorem firstSets_closed :
    (factsOf (firstSets mode g.productions g.symbols).symbols).Closed g mode := by
  have hsettled : Settled g mode (firstSets mode g.productions g.symbols) :=
    firstSets_preserves (fun _ _ hrunning h hnext =>
      hrunning.next_settled hnext h) settled_start
  refine closed_of_stable start_le_firstSets fun q hq => ?_
  refine (hsettled q hq).resolve_left fun hwait => ?_
  rw [pending_firstSets] at hwait
  exact absurd hwait List.not_mem_nil

end Descent.Analysis
