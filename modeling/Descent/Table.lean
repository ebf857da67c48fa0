/-!
# Tables in insertion order

A table maps keys to values and remembers the order in which the keys first came.
Setting a key that is already there replaces its value and keeps its place, so a
key has one position for as long as the table lives, and positions serve as
identifiers.

The view of a table is its list of entries. That no key occurs twice is part of
the type, which makes the three ways of looking something up (by key, by
position, position of a key) agree.
-/

namespace Descent

/-- Values under keys, in the order in which the keys were first set. -/
structure Table (κ α : Type) where
  entries : List (κ × α)
  nodup : (entries.map Prod.fst).Nodup
deriving DecidableEq

namespace Table

variable {κ α : Type}

@[ext] theorem ext {t u : Table κ α} (h : t.entries = u.entries) : t = u := by
  cases t; cases u; cases h; rfl

/-- The table without entries. -/
def empty : Table κ α := ⟨[], by simp⟩

instance : EmptyCollection (Table κ α) := ⟨empty⟩

instance : Inhabited (Table κ α) := ⟨empty⟩

/-- The keys in order. -/
def keys (t : Table κ α) : List κ := t.entries.map Prod.fst

/-- The values in order. -/
def values (t : Table κ α) : List α := t.entries.map Prod.snd

/-- The number of entries. -/
def size (t : Table κ α) : Nat := t.entries.length

section LookUp

variable [DecidableEq κ]

/-- The value of a key. -/
def find? (t : Table κ α) (key : κ) : Option α := t.entries.lookup key

/-- Whether a key is set. -/
def contains (t : Table κ α) (key : κ) : Bool := t.keys.contains key

/-- The position of a key. -/
def position? (t : Table κ α) (key : κ) : Option Nat := t.keys.idxOf? key

end LookUp

/-- The entry at a position. -/
def at? (t : Table κ α) (position : Nat) : Option (κ × α) := t.entries[position]?

/-! ## Setting a key -/

section Insertion

variable [DecidableEq κ]

/-- Computes a key's new value from the old one, if any; a new key goes to the end. -/
def upsertEntries (key : κ) (f : Option α → α) :
    List (κ × α) → List (κ × α)
  | [] => [(key, f none)]
  | entry :: rest =>
    if entry.1 = key then
      (key, f (some entry.2)) :: rest
    else
      entry :: upsertEntries key f rest

theorem mem_map_fst_upsertEntries {key k : κ} {f : Option α → α} {es : List (κ × α)} :
    k ∈ (upsertEntries key f es).map Prod.fst ↔ k = key ∨ k ∈ es.map Prod.fst := by
  induction es with
  | nil => simp [upsertEntries]
  | cons e es ih =>
    by_cases h : e.1 = key
    · simp [upsertEntries, h]
    · simp only [upsertEntries, h, if_false, List.map_cons, List.mem_cons, ih]
      exact or_left_comm

theorem nodup_upsertEntries {key : κ} {f : Option α → α} {es : List (κ × α)}
    (h : (es.map Prod.fst).Nodup) : ((upsertEntries key f es).map Prod.fst).Nodup := by
  induction es with
  | nil => simp [upsertEntries]
  | cons e es ih =>
    simp only [List.map_cons, List.nodup_cons] at h
    by_cases hk : e.1 = key
    · subst hk
      simpa [upsertEntries] using h
    · rw [upsertEntries, if_neg hk, List.map_cons, List.nodup_cons, mem_map_fst_upsertEntries]
      exact ⟨not_or.2 ⟨hk, h.1⟩, ih h.2⟩

/-- Sets a key to what `f` makes of its old value. -/
def upsert (t : Table κ α) (key : κ) (f : Option α → α) : Table κ α :=
  ⟨upsertEntries key f t.entries, nodup_upsertEntries t.nodup⟩

/-- Sets a key to a value. -/
def insert (t : Table κ α) (key : κ) (value : α) : Table κ α :=
  t.upsert key fun _ => value

/-- Sets the keys of a list one after the other. -/
def insertAll (t : Table κ α) (entries : List (κ × α)) : Table κ α :=
  entries.foldl (fun t entry => t.insert entry.1 entry.2) t

end Insertion

/-! ## Changing every value -/

/-- Applies `f` to every value. -/
def map {β : Type} (t : Table κ α) (f : α → β) : Table κ β :=
  ⟨t.entries.map fun e => (e.1, f e.2), by rw [List.map_map]; exact t.nodup⟩

/-! ## Changing a value in place -/

theorem map_fst_modify (es : List (κ × α)) (i : Nat) (f : α → α) :
    (es.modify i fun e => (e.1, f e.2)).map Prod.fst = es.map Prod.fst := by
  induction es generalizing i with
  | nil => simp
  | cons e es ih => cases i <;> simp [ih]

/-- Applies `f` to the value at a position; outside the table nothing happens. -/
def modifyAt (t : Table κ α) (position : Nat) (f : α → α) : Table κ α :=
  ⟨t.entries.modify position fun e => (e.1, f e.2), by rw [map_fst_modify]; exact t.nodup⟩

end Table

end Descent
