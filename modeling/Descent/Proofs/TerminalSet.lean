import Mathlib.Data.List.Perm.Subperm
import Descent.TerminalSet

/-!
# Sizes of terminal sets

A set is a list without repetitions, so a part of a set is no larger than the
set, and smaller when an element is missing. Measures of progress count with
these two.
-/

namespace Descent.TerminalSet

theorem nodup_ids (s : TerminalSet) : s.ids.Nodup :=
  s.sorted.imp fun h => Nat.ne_of_lt h

theorem size_le_of_subset {s t : TerminalSet} (h : ∀ id, id ∈ s → id ∈ t) :
    s.size ≤ t.size :=
  (List.subperm_of_subset s.nodup_ids h).length_le

theorem size_lt_of_subset {s t : TerminalSet} (h : ∀ id, id ∈ s → id ∈ t)
    {id : Nat} (hid : id ∈ t) (hnot : ¬ id ∈ s) : s.size < t.size := by
  have hcons : (id :: s.ids).Nodup := List.nodup_cons.mpr ⟨hnot, s.nodup_ids⟩
  refine (List.subperm_of_subset hcons fun other hother => ?_).length_le
  rcases List.mem_cons.mp hother with rfl | hmem
  · exact hid
  · exact h other hmem

theorem mem_foldl_union {sets : List TerminalSet} {start : TerminalSet}
    {id : Nat} :
    id ∈ sets.foldl (· ∪ ·) start ↔ id ∈ start ∨ ∃ s ∈ sets, id ∈ s := by
  induction sets generalizing start with
  | nil => simp
  | cons s sets ih =>
      rw [List.foldl_cons, ih, mem_union, or_assoc]
      simp only [List.mem_cons, exists_eq_or_imp]

end Descent.TerminalSet
