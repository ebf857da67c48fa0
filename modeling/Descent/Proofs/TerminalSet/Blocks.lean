import Mathlib.Data.List.Basic

/-!
# Sets that are kept as bits

A set of numbers can be kept as one bit for each number. What is relied on is little
(`Bits.Lawful`): which bits are set after an operation, that inclusion is decided, and
that the elements are read off by going through the bits.

Rows of blocks of thirty-two bits are such sets (`Blocks.lawful_bits`). A bit behind the
last block is not set, so two rows of different lengths can be the same set, and an
inclusion has to look also at the blocks that the other row does not have.
-/

namespace Descent.TerminalSet

/-- Sets of numbers that are kept as bits, given by what can be done with them. -/
structure Bits (β : Type) where
  empty : β
  collect : List Nat → β
  contains : β → Nat → Bool
  insert : β → Nat → β × Bool
  union : β → β → β
  isSubset : β → β → Bool
  isEmpty : β → Bool
  size : β → Nat
  ids : β → List Nat
  /-- How many bits there are, set or not. -/
  capacity : β → Nat

/-- The bits of a set are its elements. -/
structure Bits.Lawful {β : Type} (bits : Bits β) : Prop where
  contains_empty (id : Nat) : bits.contains bits.empty id = false
  contains_collect (ids : List Nat) (id : Nat) :
    bits.contains (bits.collect ids) id = true ↔ id ∈ ids
  contains_insert (s : β) (id other : Nat) :
    bits.contains (bits.insert s id).1 other = true ↔ other = id ∨ bits.contains s other = true
  insert_isNew (s : β) (id : Nat) : (bits.insert s id).2 = !bits.contains s id
  contains_union (s t : β) (id : Nat) :
    bits.contains (bits.union s t) id = (bits.contains s id || bits.contains t id)
  isSubset_iff (s t : β) : bits.isSubset s t = true ↔
    ∀ id, bits.contains s id = true → bits.contains t id = true
  isEmpty_iff (s : β) : bits.isEmpty s = true ↔ ∀ id, bits.contains s id = false
  lt_capacity (s : β) (id : Nat) : bits.contains s id = true → id < bits.capacity s
  size_eq (s : β) : bits.size s = (List.range (bits.capacity s)).countP (bits.contains s)
  ids_eq (s : β) : bits.ids s = (List.range (bits.capacity s)).filter (bits.contains s)

/-! ## Blocks -/

namespace Blocks

/-- The block at a place, which is empty behind the last one. -/
def block (s : List (BitVec 32)) (place : Nat) : BitVec 32 := s[place]?.getD 0#32

/-- Whether the bit of a number is set. -/
def bit (s : List (BitVec 32)) (id : Nat) : Bool := (block s (id / 32)).getLsbD (id % 32)

/-- Sets the bit of a number, in a new block where there is none for it yet. -/
def setBit (s : List (BitVec 32)) (id : Nat) : List (BitVec 32) :=
  (s ++ List.replicate (id / 32 + 1 - s.length) 0#32).modify (id / 32)
    (· ||| BitVec.twoPow 32 (id % 32))

/-- The bits of either row, which is as long as the longer one. -/
def join : List (BitVec 32) → List (BitVec 32) → List (BitVec 32)
  | [], t => t
  | s, [] => s
  | a :: s, b :: t => (a ||| b) :: join s t

/-- Whether the bits of the first row are set in the second; what the second row does not have
has to be empty. -/
def within : List (BitVec 32) → List (BitVec 32) → Bool
  | [], _ => true
  | a :: s, [] => a == 0#32 && within s []
  | a :: s, b :: t => a &&& b == a && within s t

variable {s t : List (BitVec 32)} {id other place : Nat}

@[simp] theorem block_cons_zero {a : BitVec 32} : block (a :: s) 0 = a := rfl

@[simp] theorem block_cons_succ {a : BitVec 32} : block (a :: s) (place + 1) = block s place := rfl

@[simp] theorem block_nil : block [] place = 0#32 := rfl

@[simp] theorem bit_nil : bit [] id = false := by simp [bit]

theorem block_append_replicate (s : List (BitVec 32)) (n place : Nat) :
    block (s ++ List.replicate n 0#32) place = block s place := by
  rw [block, block, List.getElem?_append]
  split
  · rfl
  · next hlong =>
      rw [List.getElem?_eq_none (Nat.le_of_not_lt hlong), List.getElem?_replicate]
      split <;> rfl

theorem block_setBit : block (setBit s id) place =
    if id / 32 = place then block s place ||| BitVec.twoPow 32 (id % 32) else block s place := by
  have hgrown := block_append_replicate s (id / 32 + 1 - s.length) place
  rw [setBit, block, List.getElem?_modify]
  split
  · next heq =>
      have hlong : place < (s ++ List.replicate (id / 32 + 1 - s.length) 0#32).length := by
        rw [List.length_append, List.length_replicate]
        omega
      rw [List.getElem?_eq_getElem hlong]
      rw [block, List.getElem?_eq_getElem hlong] at hgrown
      exact congrArg (· ||| BitVec.twoPow 32 (id % 32)) hgrown
  · rw [id_map']
    exact hgrown

theorem bit_setBit : bit (setBit s id) other = true ↔ other = id ∨ bit s other = true := by
  have hplace : other = id ↔ id / 32 = other / 32 ∧ id % 32 = other % 32 := by omega
  have hlow : id % 32 < 32 := Nat.mod_lt id (by decide)
  rw [bit, block_setBit, hplace]
  split
  · next heq => simp [bit, BitVec.getLsbD_twoPow, heq, hlow, or_comm]
  · next hne => simp [bit, hne]

theorem bit_foldl_setBit {ids : List Nat} :
    bit (ids.foldl setBit s) other = true ↔ bit s other = true ∨ other ∈ ids := by
  induction ids generalizing s with
  | nil => simp
  | cons id ids ih =>
      rw [List.foldl_cons, ih, bit_setBit, List.mem_cons, or_assoc, or_left_comm]

theorem block_join : block (join s t) place = block s place ||| block t place := by
  induction s generalizing t place with
  | nil => simp [join]
  | cons a s ih =>
      cases t with
      | nil => simp [join]
      | cons b t =>
          cases place with
          | zero => rfl
          | succ place => exact ih

theorem bit_join : bit (join s t) id = (bit s id || bit t id) := by
  rw [bit, block_join, BitVec.getLsbD_or]
  rfl

theorem within_iff_block :
    within s t = true ↔ ∀ place, block s place &&& block t place = block s place := by
  induction s generalizing t with
  | nil => simp [within]
  | cons a s ih =>
      cases t with
      | nil =>
          have hcomm : 0#32 = a ↔ a = 0#32 := eq_comm
          rw [← Nat.and_forall_add_one]
          simp [within, ih, hcomm]
      | cons b t =>
          rw [← Nat.and_forall_add_one]
          simp [within, ih]

/-- The bits of two rows are compared block by block. -/
theorem forall_bit_iff {q : Bool → Bool → Prop} :
    (∀ id, q (bit s id) (bit t id)) ↔
      ∀ place, ∀ low < 32, q ((block s place).getLsbD low) ((block t place).getLsbD low) := by
  constructor
  · intro h place low hlow
    have hplace : (32 * place + low) / 32 = place := by omega
    have hrest : (32 * place + low) % 32 = low := by omega
    have hid := h (32 * place + low)
    rwa [bit, bit, hplace, hrest] at hid
  · exact fun h id => h (id / 32) (id % 32) (Nat.mod_lt id (by decide))

theorem within_iff : within s t = true ↔ ∀ id, bit s id = true → bit t id = true := by
  rw [within_iff_block, forall_bit_iff (q := fun a b => a = true → b = true)]
  refine forall_congr' fun place => ?_
  constructor
  · intro h low _ hbit
    rw [← h, BitVec.getLsbD_and, Bool.and_eq_true] at hbit
    exact hbit.2
  · intro h
    refine BitVec.eq_of_getLsbD_eq fun low hlow => ?_
    rw [BitVec.getLsbD_and, Bool.and_eq_left_iff_imp]
    exact h low hlow

theorem within_nil : within s [] = s.all (· == 0#32) := by
  induction s with
  | nil => rfl
  | cons a s ih => rw [within, List.all_cons, ih]

theorem all_eq_zero_iff : s.all (· == 0#32) = true ↔ ∀ id, bit s id = false := by
  rw [← within_nil, within_iff]
  simp

theorem lt_of_bit (h : bit s id = true) : id < 32 * s.length := by
  by_contra hge
  have hnone : s[id / 32]? = none := List.getElem?_eq_none (by omega)
  have hblock : block s (id / 32) = 0#32 := by rw [block, hnone]; rfl
  rw [bit, hblock] at h
  simp at h

/-- Rows of blocks as sets. The elements are counted and listed bit by bit. -/
def bits : Bits (List (BitVec 32)) where
  empty := []
  collect ids := ids.foldl setBit []
  contains := bit
  insert s id := if bit s id then (s, false) else (setBit s id, true)
  union := join
  isSubset := within
  isEmpty s := s.all (· == 0#32)
  size s := (List.range (32 * s.length)).countP (bit s)
  ids s := (List.range (32 * s.length)).filter (bit s)
  capacity s := 32 * s.length

theorem lawful_bits : bits.Lawful where
  contains_empty _ := bit_nil
  contains_collect ids id := by
    show bit (ids.foldl setBit []) id = true ↔ _
    simp [bit_foldl_setBit]
  contains_insert s id other := by
    by_cases hbit : bit s id = true
    · have hinsert : bits.insert s id = (s, false) := if_pos hbit
      rw [hinsert]
      refine ⟨Or.inr, ?_⟩
      rintro (rfl | hother)
      · exact hbit
      · exact hother
    · have hinsert : bits.insert s id = (setBit s id, true) := if_neg hbit
      rw [hinsert]
      exact bit_setBit
  insert_isNew s id := by
    show (if bit s id then (s, false) else (setBit s id, true)).2 = !bit s id
    cases bit s id <;> rfl
  contains_union _ _ _ := bit_join
  isSubset_iff _ _ := within_iff
  isEmpty_iff _ := all_eq_zero_iff
  lt_capacity _ _ := lt_of_bit
  size_eq _ := rfl
  ids_eq _ := rfl

end Blocks

end Descent.TerminalSet
