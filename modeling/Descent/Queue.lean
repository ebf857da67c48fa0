/-!
# A first-in first-out queue without repetitions

A value that is already waiting is not queued again. The queue is two lists, the
values to take next and, in reverse, the values that came last; its view is the
list of waiting values in order, and in that view a push appends and a pop takes
the head. That no value waits twice is part of the type.
-/

namespace Descent

/-- The values waiting, each at most once: `front` in order, then `back` reversed. -/
structure Queue (α : Type) where
  front : List α
  back : List α
  nodup : (front ++ back.reverse).Nodup

namespace Queue

variable {α : Type}

/-- The waiting values, the next one first. -/
def toList (q : Queue α) : List α := q.front ++ q.back.reverse

/-- The queue in which nothing waits. -/
def empty : Queue α := ⟨[], [], by simp⟩

instance : EmptyCollection (Queue α) := ⟨empty⟩

instance : Inhabited (Queue α) := ⟨empty⟩

/-- The number of waiting values. -/
def size (q : Queue α) : Nat := q.front.length + q.back.length

/-- Whether nothing waits. -/
def isEmpty (q : Queue α) : Bool := q.front.isEmpty && q.back.isEmpty

section Push

variable [DecidableEq α]

/-- Whether a value is waiting. -/
def contains (q : Queue α) (a : α) : Bool := q.front.contains a || q.back.contains a

theorem contains_iff {q : Queue α} {a : α} : q.contains a = true ↔ a ∈ q.toList := by
  simp [contains, toList]

theorem nodup_snoc {q : Queue α} {a : α} (h : ¬ q.contains a = true) :
    (q.front ++ (a :: q.back).reverse).Nodup := by
  have h' : a ∉ q.front ++ q.back.reverse := fun hm => h (contains_iff.2 hm)
  rw [List.reverse_cons, ← List.append_assoc]
  refine List.nodup_append.2 ⟨q.nodup, by simp, fun x hx y hy => ?_⟩
  rw [List.mem_singleton] at hy
  subst hy
  exact fun e => h' (e ▸ hx)

/-- Queues a value unless it is waiting already, and says whether it was queued. -/
def push (q : Queue α) (a : α) : Queue α × Bool :=
  if h : q.contains a = true then (q, false) else (⟨q.front, a :: q.back, nodup_snoc h⟩, true)

theorem push_of_mem {q : Queue α} {a : α} (h : a ∈ q.toList) : q.push a = (q, false) := by
  rw [push, dif_pos (contains_iff.2 h)]

theorem toList_push_of_not_mem {q : Queue α} {a : α} (h : a ∉ q.toList) :
    (q.push a).1.toList = q.toList ++ [a] ∧ (q.push a).2 = true := by
  rw [push, dif_neg (mt contains_iff.1 h)]
  simp [toList]

/-- Pushes the values of a list one after the other. -/
def pushAll (q : Queue α) (as : List α) : Queue α :=
  as.foldl (fun q a => (q.push a).1) q

/-- The queue of the values of a list, later repetitions dropped. -/
def ofList (as : List α) : Queue α := pushAll ∅ as

end Push

/-- Takes the value that has waited longest. -/
def pop? (q : Queue α) : Option (α × Queue α) :=
  match hf : q.front with
  | a :: front =>
    some (a, ⟨front, q.back, by have h := q.nodup; rw [hf] at h; exact (List.nodup_cons.1 h).2⟩)
  | [] =>
    match hb : q.back.reverse with
    | a :: front =>
      some (a, ⟨front, [], by
        have h := q.nodup
        rw [hf, hb] at h
        simpa using (List.nodup_cons.1 h).2⟩)
    | [] => none

theorem pop?_eq_none_iff {q : Queue α} : q.pop? = none ↔ q.toList = [] := by
  unfold pop? toList
  split
  case h_1 h => simp [h]
  case h_2 h =>
    split
    case h_1 hb => simp [h, hb]
    case h_2 hb => simp [h, hb]

theorem toList_of_pop?_eq_some {q r : Queue α} {a : α} (h : q.pop? = some (a, r)) :
    q.toList = a :: r.toList := by
  unfold pop? at h
  unfold toList
  split at h
  case h_1 hf =>
    simp only [Option.some.injEq, Prod.mk.injEq] at h
    obtain ⟨rfl, rfl⟩ := h
    simp [hf]
  case h_2 hf =>
    split at h
    case h_1 hb =>
      simp only [Option.some.injEq, Prod.mk.injEq] at h
      obtain ⟨rfl, rfl⟩ := h
      simp [hf, hb]
    case h_2 => exact absurd h (by simp)

end Queue

end Descent
