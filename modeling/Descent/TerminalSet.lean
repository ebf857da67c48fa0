/-!
# Finite sets of terminals

A terminal is identified by its position in the header, so a set of terminals is
a finite set of natural numbers. It is kept as a strictly increasing list, which
has two uses: the elements come out by rising position, and two sets with the
same elements are the same set.

The two operations that grow a set also say whether they changed it. The
analysis stops when nothing grows any more.
-/

namespace Descent

/-- A finite set of terminal positions. -/
structure TerminalSet where
  ids : List Nat
  sorted : ids.Pairwise (· < ·)
deriving DecidableEq

namespace TerminalSet

/-- The set without elements. -/
def empty : TerminalSet := ⟨[], .nil⟩

instance : EmptyCollection TerminalSet := ⟨empty⟩

instance : Inhabited TerminalSet := ⟨empty⟩

instance : Membership Nat TerminalSet := ⟨fun s id => id ∈ s.ids⟩

instance (id : Nat) (s : TerminalSet) : Decidable (id ∈ s) :=
  inferInstanceAs (Decidable (id ∈ s.ids))

theorem mem_def {id : Nat} {s : TerminalSet} : id ∈ s ↔ id ∈ s.ids := Iff.rfl

/-- Two strictly increasing lists with the same elements are the same list. -/
theorem eq_of_pairwise_lt : ∀ {l k : List Nat}, l.Pairwise (· < ·) → k.Pairwise (· < ·) →
    (∀ id, id ∈ l ↔ id ∈ k) → l = k
  | [], [], _, _, _ => rfl
  | [], b :: k, _, _, h => absurd ((h b).2 List.mem_cons_self) List.not_mem_nil
  | a :: l, [], _, _, h => absurd ((h a).1 List.mem_cons_self) List.not_mem_nil
  | a :: l, b :: k, hl, hk, h => by
    have ⟨hal, hl'⟩ := List.pairwise_cons.1 hl
    have ⟨hbk, hk'⟩ := List.pairwise_cons.1 hk
    have hab : a = b := by
      rcases List.mem_cons.1 ((h a).1 List.mem_cons_self) with rfl | hak
      · rfl
      · rcases List.mem_cons.1 ((h b).2 List.mem_cons_self) with rfl | hbl
        · rfl
        · have := hbk a hak
          have := hal b hbl
          omega
    subst hab
    refine congrArg _ (eq_of_pairwise_lt hl' hk' fun id => ?_)
    constructor
    · intro hid
      rcases List.mem_cons.1 ((h id).1 (List.mem_cons_of_mem _ hid)) with rfl | hid'
      · exact absurd (hal _ hid) (Nat.lt_irrefl _)
      · exact hid'
    · intro hid
      rcases List.mem_cons.1 ((h id).2 (List.mem_cons_of_mem _ hid)) with rfl | hid'
      · exact absurd (hbk _ hid) (Nat.lt_irrefl _)
      · exact hid'

@[ext] theorem ext {s t : TerminalSet} (h : ∀ id, id ∈ s ↔ id ∈ t) : s = t := by
  cases s with
  | mk ids hids =>
    cases t with
    | mk ids' hids' =>
      obtain rfl : ids = ids' := eq_of_pairwise_lt hids hids' h
      rfl

/-- Whether a terminal is in the set. -/
def contains (s : TerminalSet) (id : Nat) : Bool := s.ids.contains id

@[simp] theorem contains_iff {s : TerminalSet} {id : Nat} : s.contains id = true ↔ id ∈ s := by
  simp [contains, mem_def]

/-- The number of elements. -/
def size (s : TerminalSet) : Nat := s.ids.length

/-- Whether there are no elements. -/
def isEmpty (s : TerminalSet) : Bool := s.ids.isEmpty

/-! ## Insertion -/

/-- Puts a number into a strictly increasing list, at its place. -/
def insertId (id : Nat) : List Nat → List Nat
  | [] => [id]
  | other :: rest =>
    if id < other then
      id :: other :: rest
    else if id = other then
      other :: rest
    else
      other :: insertId id rest

theorem mem_insertId {id k : Nat} {l : List Nat} : k ∈ insertId id l ↔ k = id ∨ k ∈ l := by
  fun_induction insertId id l with
  | case1 => simp
  | case2 => simp
  | case3 => simp
  | case4 other rest _ _ ih => rw [List.mem_cons, ih, List.mem_cons, or_left_comm]

theorem pairwise_insertId {id : Nat} {l : List Nat} (h : l.Pairwise (· < ·)) :
    (insertId id l).Pairwise (· < ·) := by
  induction l with
  | nil => simp [insertId]
  | cons other rest ih =>
    have ⟨hother, hrest⟩ := List.pairwise_cons.1 h
    unfold insertId
    split
    case isTrue hlt =>
      refine List.pairwise_cons.2 ⟨fun k hk => ?_, h⟩
      rcases List.mem_cons.1 hk with rfl | hk
      · exact hlt
      · exact Nat.lt_trans hlt (hother k hk)
    case isFalse hnlt =>
      split
      · exact h
      · refine List.pairwise_cons.2 ⟨fun k hk => ?_, ih hrest⟩
        rcases mem_insertId.1 hk with rfl | hk
        · omega
        · exact hother k hk

/-- The set with one more element. -/
def insert (s : TerminalSet) (id : Nat) : TerminalSet :=
  ⟨insertId id s.ids, pairwise_insertId s.sorted⟩

@[simp] theorem mem_insert {s : TerminalSet} {id k : Nat} : k ∈ s.insert id ↔ k = id ∨ k ∈ s :=
  mem_insertId

/-- The set of the elements of a list. -/
def ofList (ids : List Nat) : TerminalSet := ids.foldl insert ∅

/-- The set with one element. -/
def singleton (id : Nat) : TerminalSet := ⟨[id], List.pairwise_singleton ..⟩

/-! ## Union and inclusion -/

/-- The set of the elements of either set. -/
def union (s t : TerminalSet) : TerminalSet := t.ids.foldl insert s

instance : Union TerminalSet := ⟨union⟩

theorem mem_foldl_insert {ids : List Nat} {s : TerminalSet} {k : Nat} :
    k ∈ ids.foldl insert s ↔ k ∈ s ∨ k ∈ ids := by
  induction ids generalizing s with
  | nil => simp
  | cons id ids ih =>
    simp only [List.foldl_cons, ih, mem_insert, List.mem_cons]
    constructor
    · rintro ((h | h) | h) <;> simp [h]
    · rintro (h | h | h) <;> simp [h]

@[simp] theorem mem_union {s t : TerminalSet} {k : Nat} : k ∈ s ∪ t ↔ k ∈ s ∨ k ∈ t :=
  mem_foldl_insert

@[simp] theorem mem_ofList {ids : List Nat} {k : Nat} : k ∈ ofList ids ↔ k ∈ ids := by
  rw [ofList, mem_foldl_insert]
  simp [EmptyCollection.emptyCollection, empty, mem_def]

@[simp] theorem mem_singleton {id k : Nat} : k ∈ singleton id ↔ k = id := by
  simp [singleton, mem_def]

@[simp] theorem not_mem_empty {k : Nat} : ¬ k ∈ (∅ : TerminalSet) := by
  simp [EmptyCollection.emptyCollection, empty, mem_def]

/-- Whether every element of the first set is in the second. -/
def isSubset (s t : TerminalSet) : Bool := s.ids.all t.contains

@[simp] theorem isSubset_iff {s t : TerminalSet} :
    s.isSubset t = true ↔ ∀ id ∈ s, id ∈ t := by
  simp [isSubset, mem_def]

/-! ## Growing a set -/

/-- Inserts an element and says whether it was absent. -/
def insertNew (s : TerminalSet) (id : Nat) : TerminalSet × Bool :=
  if s.contains id then (s, false) else (s.insert id, true)

/-- Adds the elements of another set and says whether one of them was absent. -/
def addAll (s t : TerminalSet) : TerminalSet × Bool :=
  if t.isSubset s then (s, false) else (s ∪ t, true)

theorem mem_insertNew {s : TerminalSet} {id k : Nat} :
    k ∈ (s.insertNew id).1 ↔ k = id ∨ k ∈ s := by
  unfold insertNew
  split
  case isTrue h =>
    have := contains_iff.1 h
    constructor
    · exact .inr
    · rintro (rfl | hk)
      · exact this
      · exact hk
  case isFalse => exact mem_insert

theorem insertNew_snd {s : TerminalSet} {id : Nat} : (s.insertNew id).2 = !s.contains id := by
  unfold insertNew
  cases s.contains id <;> rfl

theorem mem_addAll {s t : TerminalSet} {k : Nat} : k ∈ (s.addAll t).1 ↔ k ∈ s ∨ k ∈ t := by
  unfold addAll
  split
  case isTrue h =>
    have := isSubset_iff.1 h
    constructor
    · exact .inl
    · rintro (hk | hk)
      · exact hk
      · exact this k hk
  case isFalse => exact mem_union

theorem addAll_snd {s t : TerminalSet} : (s.addAll t).2 = !t.isSubset s := by
  unfold addAll
  cases t.isSubset s <;> rfl

theorem addAll_eq_self {s t : TerminalSet} (h : ∀ id ∈ t, id ∈ s) :
    s.addAll t = (s, false) := by
  rw [addAll, if_pos (isSubset_iff.mpr h)]

theorem addAll_eq_self_of_snd {s t : TerminalSet} (h : (s.addAll t).2 = false) :
    (s.addAll t).1 = s := by
  rw [addAll_snd, Bool.not_eq_false', isSubset_iff] at h
  rw [addAll_eq_self h]

end TerminalSet

end Descent
