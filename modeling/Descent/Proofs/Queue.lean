import Descent.Queue

/-!
# What waits in a queue

Membership and size through the view of a queue as a list. A push can only add
its own value, and adds at most one, so pushing a list makes all of its values
wait and costs no more places than the list is long. A list without repetitions is
queued as it is.
-/

namespace Descent.Queue

variable {α : Type}

theorem size_eq_length (q : Queue α) : q.size = q.toList.length := by
  rw [size, toList, List.length_append, List.length_reverse]

theorem isEmpty_eq (q : Queue α) : q.isEmpty = q.toList.isEmpty := by
  cases hfront : q.front <;> simp [isEmpty, toList, hfront]

theorem size_of_pop? {q r : Queue α} {a : α} (h : q.pop? = some (a, r)) :
    q.size = r.size + 1 := by
  rw [size_eq_length, size_eq_length, toList_of_pop?_eq_some h,
    List.length_cons]

variable [DecidableEq α]

theorem mem_push {q : Queue α} {a b : α} :
    b ∈ (q.push a).1.toList ↔ b ∈ q.toList ∨ b = a := by
  by_cases h : a ∈ q.toList
  · rw [push_of_mem h]
    refine ⟨Or.inl, fun hb => hb.elim id ?_⟩
    rintro rfl
    exact h
  · rw [(toList_push_of_not_mem h).1, List.mem_append, List.mem_singleton]

theorem size_push_le {q : Queue α} {a : α} : (q.push a).1.size ≤ q.size + 1 := by
  by_cases h : a ∈ q.toList
  · rw [push_of_mem h]
    exact Nat.le_succ _
  · rw [size_eq_length, (toList_push_of_not_mem h).1, List.length_append,
      size_eq_length]
    exact Nat.le_refl _

theorem mem_pushAll {as : List α} {q : Queue α} {b : α} :
    b ∈ (q.pushAll as).toList ↔ b ∈ q.toList ∨ b ∈ as := by
  induction as generalizing q with
  | nil => exact ⟨Or.inl, fun h => h.resolve_right List.not_mem_nil⟩
  | cons a as ih =>
      show b ∈ ((q.push a).1.pushAll as).toList ↔ _
      rw [ih, mem_push, List.mem_cons, or_assoc]

theorem size_pushAll_le {as : List α} {q : Queue α} :
    (q.pushAll as).size ≤ q.size + as.length := by
  induction as generalizing q with
  | nil => exact Nat.le_refl _
  | cons a as ih =>
      show ((q.push a).1.pushAll as).size ≤ _
      have hrest := ih (q := (q.push a).1)
      have hpush := size_push_le (q := q) (a := a)
      rw [List.length_cons]
      omega

theorem size_le_push {q : Queue α} {a : α} : q.size ≤ (q.push a).1.size := by
  by_cases h : a ∈ q.toList
  · exact Nat.le_of_eq (by rw [push_of_mem h])
  · rw [size_eq_length, size_eq_length, (toList_push_of_not_mem h).1, List.length_append]
    omega

theorem size_le_pushAll {as : List α} {q : Queue α} : q.size ≤ (q.pushAll as).size := by
  induction as generalizing q with
  | nil => exact Nat.le_refl _
  | cons a as ih => exact Nat.le_trans size_le_push (ih (q := (q.push a).1))

/-- Values that do not wait yet and differ from each other all come to wait, in order. -/
theorem toList_pushAll_of_nodup {as : List α} {q : Queue α} (h : (q.toList ++ as).Nodup) :
    (q.pushAll as).toList = q.toList ++ as := by
  induction as generalizing q with
  | nil => simp [pushAll]
  | cons a as ih =>
      have hnew : a ∉ q.toList := by
        intro hmem
        exact (List.nodup_append.mp h).2.2 a hmem a List.mem_cons_self rfl
      have hpush := (toList_push_of_not_mem hnew).1
      show ((q.push a).1.pushAll as).toList = _
      rw [List.append_cons, ← hpush] at h ⊢
      exact ih h

theorem toList_ofList_of_nodup {as : List α} (h : as.Nodup) : (ofList as).toList = as := by
  have hempty : (∅ : Queue α).toList = [] := rfl
  have hfresh : ((∅ : Queue α).toList ++ as).Nodup := by rwa [hempty, List.nil_append]
  rw [ofList, toList_pushAll_of_nodup hfresh, hempty, List.nil_append]

theorem mem_ofList {as : List α} {b : α} :
    b ∈ (ofList as).toList ↔ b ∈ as := by
  rw [ofList, mem_pushAll]
  exact ⟨fun h => h.resolve_left List.not_mem_nil, Or.inr⟩

theorem size_ofList_le {as : List α} : (ofList as).size ≤ as.length := by
  have h : (pushAll ∅ as).size ≤ (∅ : Queue α).size + as.length :=
    size_pushAll_le
  have hempty : (∅ : Queue α).size = 0 := rfl
  rw [ofList]
  omega

end Descent.Queue
