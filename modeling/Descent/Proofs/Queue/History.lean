import Descent.Proofs.Queue

/-!
# The history of a queue

The plainest queue is a list without repetitions, and this is what every queue has to
look like to whoever pushes and pops (`run_refines_plain`). Two queues are compared
with it, over any sequence of operations: the one of two lists, and one that keeps a
set of the waiting values beside the list, to see quickly what waits already.

That set has an order of its own, since an element that is taken out is replaced by
the last one. What the two have in common is that they are permutations of each
other, and both operations keep them so.

A value that is pushed with success waits until it is popped, and only then can it
be pushed with success again. So over a history the pushes of a value that succeed
and its pops differ by what is waiting in the end.
-/

namespace Descent.Queue

variable {α σ τ : Type}

inductive Op (α : Type)
  | push (a : α)
  | pop

/-- What an operation was and what came of it. -/
inductive Answer (α : Type)
  | pushed (a : α) (isNew : Bool)
  | popped (a? : Option α)
deriving DecidableEq

/-- A kind of queue, given by what can be done with it. -/
structure Kind (α σ : Type) where
  empty : σ
  push : σ → α → σ × Bool
  pop? : σ → Option (α × σ)

namespace Kind

def ofList (k : Kind α σ) (as : List α) : σ :=
  as.foldl (fun s a => (k.push s a).1) k.empty

def step (k : Kind α σ) (s : σ) : Op α → σ × Answer α
  | .push a => ((k.push s a).1, .pushed a (k.push s a).2)
  | .pop =>
    match k.pop? s with
    | none => (s, .popped none)
    | some (a, rest) => (rest, .popped (some a))

/-- Does one operation after the other and collects the answers. -/
def run (k : Kind α σ) (s : σ) : List (Op α) → σ × List (Answer α)
  | [] => (s, [])
  | op :: ops =>
    let here := k.step s op
    let there := run k here.1 ops
    (there.1, here.2 :: there.2)

end Kind

section Kinds

variable [DecidableEq α]

/-- The list without repetitions. -/
def plain : Kind α (List α) where
  empty := []
  push l a := if a ∈ l then (l, false) else (l ++ [a], true)
  pop?
    | [] => none
    | a :: l => some (a, l)

def twoLists : Kind α (Queue α) where
  empty := ∅
  push := push
  pop? := pop?

/-- A list, and the set of its elements. -/
structure Paired (α : Type) where
  queue : List α
  pending : List α

/-- Takes an element out and puts the last one into its place. -/
def swapRemove (a : α) (l : List α) : List α :=
  match l.idxOf? a, l.getLast? with
  | some i, some last => (l.set i last).dropLast
  | _, _ => l

def paired : Kind α (Paired α) where
  empty := ⟨[], []⟩
  push q a := if a ∈ q.pending then (q, false) else (⟨q.queue ++ [a], q.pending ++ [a]⟩, true)
  pop? q :=
    match q.queue with
    | [] => none
    | a :: rest => some (a, ⟨rest, swapRemove a q.pending⟩)

end Kinds

/-! ## Simulation -/

/-- Whoever uses a queue of the first kind might as well use one of the second. -/
structure Kind.Simulates (k : Kind α σ) (k' : Kind α τ) (R : σ → τ → Prop) : Prop where
  empty : R k.empty k'.empty
  push {s : σ} {t : τ} (h : R s t) (a : α) :
    R (k.push s a).1 (k'.push t a).1 ∧ (k.push s a).2 = (k'.push t a).2
  pop {s : σ} {t : τ} (h : R s t) :
    k.pop? s = none ∧ k'.pop? t = none ∨
      ∃ a s' t', k.pop? s = some (a, s') ∧ k'.pop? t = some (a, t') ∧ R s' t'

namespace Kind.Simulates

variable {k : Kind α σ} {k' : Kind α τ} {R : σ → τ → Prop}

theorem step (sim : k.Simulates k' R) {s : σ} {t : τ} (h : R s t) (op : Op α) :
    R (k.step s op).1 (k'.step t op).1 ∧ (k.step s op).2 = (k'.step t op).2 := by
  cases op with
  | push a =>
      obtain ⟨hrel, hflag⟩ := sim.push h a
      exact ⟨hrel, congrArg (Answer.pushed a) hflag⟩
  | pop =>
      rcases sim.pop h with ⟨hs, ht⟩ | ⟨a, s', t', hs, ht, hrel⟩
      · rw [Kind.step, Kind.step, hs, ht]
        exact ⟨h, rfl⟩
      · rw [Kind.step, Kind.step, hs, ht]
        exact ⟨hrel, rfl⟩

theorem run (sim : k.Simulates k' R) {s : σ} {t : τ} (h : R s t) (ops : List (Op α)) :
    R (k.run s ops).1 (k'.run t ops).1 ∧ (k.run s ops).2 = (k'.run t ops).2 := by
  induction ops generalizing s t with
  | nil => exact ⟨h, rfl⟩
  | cons op ops ih =>
      obtain ⟨hrel, hanswer⟩ := sim.step h op
      obtain ⟨hrest, hanswers⟩ := ih hrel
      rw [Kind.run, Kind.run]
      exact ⟨hrest, by rw [hanswer, hanswers]⟩

theorem ofList (sim : k.Simulates k' R) (as : List α) : R (k.ofList as) (k'.ofList as) := by
  have hfold : ∀ {s : σ} {t : τ}, R s t →
      R (as.foldl (fun s a => (k.push s a).1) s) (as.foldl (fun t a => (k'.push t a).1) t) := by
    induction as with
    | nil => exact fun h => h
    | cons a as ih => exact fun h => ih (sim.push h a).1
  exact hfold sim.empty

end Kind.Simulates

section Kinds

variable [DecidableEq α]

theorem plain_push_of_mem {l : List α} {a : α} (h : a ∈ l) :
    plain.push l a = (l, false) := if_pos h

theorem plain_push_of_not_mem {l : List α} {a : α} (h : a ∉ l) :
    plain.push l a = (l ++ [a], true) := if_neg h

theorem twoLists_simulates :
    (twoLists : Kind α _).Simulates plain fun q l => q.toList = l where
  empty := rfl
  push := by
    rintro q _ rfl a
    show (q.push a).1.toList = (plain.push q.toList a).1 ∧
      (q.push a).2 = (plain.push q.toList a).2
    by_cases h : a ∈ q.toList
    · rw [push_of_mem h, plain_push_of_mem h]
      exact ⟨rfl, rfl⟩
    · rw [plain_push_of_not_mem h]
      exact toList_push_of_not_mem h
  pop := by
    rintro q _ rfl
    cases hpop : q.pop? with
    | none =>
        refine Or.inl ⟨hpop, ?_⟩
        rw [pop?_eq_none_iff.mp hpop]
        rfl
    | some popped =>
        refine Or.inr ⟨popped.1, popped.2, popped.2.toList, hpop, ?_, rfl⟩
        rw [toList_of_pop?_eq_some hpop]
        rfl

/-! ## The set beside the list -/

/-- Taking an element out moves others, but loses none. -/
theorem cons_swapRemove_perm {a : α} {l : List α} (h : a ∈ l) : (a :: swapRemove a l).Perm l := by
  obtain ⟨before, after, rfl, hnot⟩ := List.eq_append_cons_of_mem h
  have hindex : (before ++ a :: after).idxOf? a = some before.length := by
    refine List.idxOf?_eq_some_iff.mpr ⟨by simp, by simp, fun j hj heq => hnot ?_⟩
    rw [List.getElem_append_left hj] at heq
    exact heq ▸ List.getElem_mem hj
  rcases List.eq_nil_or_concat after with rfl | ⟨init, last, rfl⟩
  · have hremove : swapRemove a (before ++ [a]) = before := by
      simp [swapRemove, hindex]
    rw [hremove]
    exact (List.perm_append_singleton a before).symm
  · rw [List.concat_eq_append] at hindex ⊢
    have hend : before ++ a :: (init ++ [last]) = (before ++ a :: init) ++ [last] := by simp
    have hset : (before ++ a :: (init ++ [last])).set before.length last =
        (before ++ last :: init) ++ [last] := by simp
    have hremove : swapRemove a (before ++ a :: (init ++ [last])) = before ++ last :: init := by
      have hlast : (before ++ a :: (init ++ [last])).getLast? = some last := by
        rw [hend, List.getLast?_concat]
      rw [swapRemove, hindex, hlast]
      show ((before ++ a :: (init ++ [last])).set before.length last).dropLast = _
      rw [hset, List.dropLast_concat]
    rw [hremove]
    have hmoved : (last :: init).Perm (init ++ [last]) := (List.perm_append_singleton ..).symm
    exact ((hmoved.append_left before).cons a).trans List.perm_middle.symm

theorem paired_simulates : (paired : Kind α _).Simulates plain fun q l =>
    q.queue = l ∧ l.Nodup ∧ q.pending.Perm l where
  empty := ⟨rfl, List.nodup_nil, List.Perm.refl _⟩
  push := by
    rintro q _ ⟨rfl, hnodup, hperm⟩ a
    simp only [paired, plain, hperm.mem_iff]
    split
    · exact ⟨⟨rfl, hnodup, hperm⟩, rfl⟩
    · next h =>
        have hcons : (a :: q.queue).Nodup := List.nodup_cons.mpr ⟨h, hnodup⟩
        exact ⟨⟨rfl, (List.perm_append_singleton ..).nodup_iff.mpr hcons,
          hperm.append_right [a]⟩, rfl⟩
  pop := by
    rintro ⟨queue, pending⟩ _ ⟨rfl, hnodup, hperm⟩
    cases queue with
    | nil => exact Or.inl ⟨rfl, rfl⟩
    | cons a rest =>
        have hmem : a ∈ pending := hperm.mem_iff.mpr List.mem_cons_self
        have hrest := ((cons_swapRemove_perm hmem).trans hperm).cons_inv
        exact Or.inr ⟨a, _, rest, rfl, rfl, rfl, (List.nodup_cons.mp hnodup).2, hrest⟩

/-! ## What a value goes through -/

variable {l : List α} {a : α}

/-- A value comes to wait by a push that succeeds, and stops by being popped. -/
theorem count_step (op : Op α) :
    [(plain.step l op).2].count (.pushed a true) + l.count a =
      [(plain.step l op).2].count (.popped (some a)) + (plain.step l op).1.count a := by
  cases op with
  | push b =>
      by_cases h : b ∈ l
      · rw [Kind.step, plain_push_of_mem h]
        simp
      · rw [Kind.step, plain_push_of_not_mem h]
        by_cases heq : b = a <;> simp [heq, Nat.add_comm]
  | pop =>
      cases l with
      | nil => simp [Kind.step, plain]
      | cons b rest =>
          have hstep : plain.step (b :: rest) .pop = (rest, .popped (some b)) := rfl
          rw [hstep]
          by_cases heq : b = a <;> simp [heq, Nat.add_comm]

theorem count_run (ops : List (Op α)) :
    (plain.run l ops).2.count (.pushed a true) + l.count a =
      (plain.run l ops).2.count (.popped (some a)) + (plain.run l ops).1.count a := by
  induction ops generalizing l with
  | nil => simp [Kind.run]
  | cons op ops ih =>
      have hhere := count_step (l := l) (a := a) op
      have hthere := ih (l := (plain.step l op).1)
      simp only [Kind.run, List.count_cons, List.count_nil] at hhere ⊢
      omega

/-- What a collection is queued with, as operations on the empty queue. -/
theorem run_map_push (as : List α) :
    (plain.run l (as.map .push)).1 = as.foldl (fun l a => (plain.push l a).1) l ∧
      .popped (some a) ∉ (plain.run l (as.map .push)).2 := by
  induction as generalizing l with
  | nil => exact ⟨rfl, List.not_mem_nil⟩
  | cons b as ih =>
      obtain ⟨hlist, hnot⟩ := ih (l := (plain.push l b).1)
      refine ⟨hlist, ?_⟩
      rw [List.map_cons, Kind.run]
      exact List.not_mem_cons_of_ne_of_not_mem nofun hnot

/-- The pushes of the collection that a queue starts with count as well. -/
theorem count_history (as : List α) (ops : List (Op α)) :
    (plain.run plain.empty (as.map .push)).2.count (.pushed a true) +
        (plain.run (plain.ofList as) ops).2.count (.pushed a true) =
      (plain.run (plain.ofList as) ops).2.count (.popped (some a)) +
        (plain.run (plain.ofList as) ops).1.count a := by
  obtain ⟨hstart, hnone⟩ := run_map_push (l := plain.empty) (a := a) as
  have hbefore := count_run (l := plain.empty) (a := a) (as.map .push)
  have hafter := count_run (l := plain.ofList as) (a := a) ops
  have hempty : (plain : Kind α _).empty.count a = 0 := List.count_nil
  have hofList : (plain.run plain.empty (as.map .push)).1 = plain.ofList as := hstart
  rw [List.count_eq_zero.mpr hnone, hofList, hempty] at hbefore
  omega

/-- Over any initial collection and any operations a queue looks like the plain list, also
if it keeps a set of its elements. -/
theorem run_refines_plain (as : List α) (ops : List (Op α)) :
    let expected := plain.run (plain.ofList as) ops
    let actual := twoLists.run (ofList as) ops
    let kept := paired.run (paired.ofList as) ops
    (actual.2 = expected.2 ∧ actual.1.toList = expected.1 ∧
        actual.1.size = expected.1.length ∧ actual.1.isEmpty = expected.1.isEmpty) ∧
      (kept.2 = expected.2 ∧ kept.1.queue = expected.1 ∧ kept.1.pending.Nodup ∧
        ∀ a, a ∈ kept.1.pending ↔ a ∈ kept.1.queue) ∧
      expected.1.Nodup ∧
      ∀ a, (plain.run plain.empty (as.map .push)).2.count (.pushed a true) +
          expected.2.count (.pushed a true) =
        expected.2.count (.popped (some a)) + if a ∈ expected.1 then 1 else 0 := by
  intro expected actual kept
  obtain ⟨hview, hanswers⟩ := twoLists_simulates.run (twoLists_simulates.ofList as) ops
  obtain ⟨⟨hqueue, hnodup, hperm⟩, hanswers'⟩ :=
    paired_simulates.run (paired_simulates.ofList as) ops
  refine ⟨⟨hanswers, hview, ?_, ?_⟩, ⟨hanswers', hqueue, ?_, fun a => ?_⟩, hnodup, fun a => ?_⟩
  · rw [size_eq_length]
    exact congrArg List.length hview
  · rw [isEmpty_eq]
    exact congrArg List.isEmpty hview
  · exact hperm.nodup_iff.mpr hnodup
  · rw [hqueue]
    exact hperm.mem_iff
  · rw [← hnodup.count]
    exact count_history as ops

/-- What waits already is not queued again, what has been popped is. -/
example : (twoLists.run (ofList [1, 2, 1, 3])
      [.push 2, .pop, .push 1, .pop, .pop, .pop, .pop]).2 =
    [.pushed 2 false, .popped (some 1), .pushed 1 true, .popped (some 2), .popped (some 3),
      .popped (some 1), .popped none] := by
  decide

end Kinds

end Descent.Queue
