import Descent.Table

/-!
# Facts about tables

The three ways of looking something up agree: a key has a value just when it has
an entry (`find?_eq_some_iff`), and its position is the place of that entry
(`position?_eq_some_iff`). Setting a key changes the value of that key alone
(`find?_upsert`) and moves no key that is there (`keys_upsert`, `at?_upsert`). A change at a
position changes the entry there alone (`at?_modifyAt`).
-/

namespace Descent.Table

variable {κ α : Type}

@[simp] theorem keys_empty : (∅ : Table κ α).keys = [] := rfl

@[simp] theorem entries_empty : (∅ : Table κ α).entries = [] := rfl

@[simp] theorem length_keys (t : Table κ α) : t.keys.length = t.size := by
  simp [keys, size]

theorem nodup_keys (t : Table κ α) : t.keys.Nodup := t.nodup

/-! ## Looking up -/

section LookUp

variable [DecidableEq κ]

theorem contains_iff {t : Table κ α} {key : κ} : t.contains key = true ↔ key ∈ t.keys := by
  simp [contains]

theorem lookup_cons {e : κ × α} {es : List (κ × α)} {k : κ} :
    (e :: es).lookup k = if k = e.1 then some e.2 else es.lookup k := by
  obtain ⟨key, a⟩ := e
  rw [List.lookup_cons]
  by_cases h : k = key
  · simp [h]
  · have hbeq : (k == key) = false := by simpa using h
    simp [h, hbeq]

theorem lookup_eq_some_iff {es : List (κ × α)} (h : (es.map Prod.fst).Nodup) {key : κ} {a : α} :
    es.lookup key = some a ↔ (key, a) ∈ es := by
  induction es with
  | nil => simp
  | cons e es ih =>
    obtain ⟨k, b⟩ := e
    have ⟨hk, hes⟩ := List.nodup_cons.1 h
    rw [lookup_cons, List.mem_cons]
    by_cases hkey : key = k
    · subst hkey
      have hnot : (key, a) ∉ es := fun hm => hk (List.mem_map.2 ⟨_, hm, rfl⟩)
      simp [hnot, eq_comm]
    · simp [hkey, ih hes]

theorem find?_eq_some_iff {t : Table κ α} {key : κ} {a : α} :
    t.find? key = some a ↔ (key, a) ∈ t.entries :=
  lookup_eq_some_iff t.nodup

theorem find?_eq_none_iff {t : Table κ α} {key : κ} : t.find? key = none ↔ key ∉ t.keys := by
  rw [Option.eq_none_iff_forall_ne_some]
  simp only [ne_eq, find?_eq_some_iff, keys, List.mem_map, Prod.exists, exists_and_right,
    exists_eq_right, not_exists]

theorem isSome_find?_iff {t : Table κ α} {key : κ} :
    (t.find? key).isSome = true ↔ key ∈ t.keys := by
  rw [← Option.not_isNone, Bool.not_eq_true', ← Bool.not_eq_true, Option.isNone_iff_eq_none,
    find?_eq_none_iff]
  exact Decidable.not_not

theorem position?_eq_some_iff {t : Table κ α} {key : κ} {i : Nat} :
    t.position? key = some i ↔ ∃ a, t.at? i = some (key, a) := by
  have hkeys : t.keys[i]? = some key ↔ ∃ a, t.at? i = some (key, a) := by
    simp only [keys, at?, List.getElem?_map, Option.map_eq_some_iff, Prod.exists,
      exists_and_right, exists_eq_right]
  rw [← hkeys, position?, List.idxOf?_eq_some_iff]
  constructor
  · rintro ⟨hi, he, -⟩
    rw [List.getElem?_eq_getElem hi, he]
  · intro h
    obtain ⟨hi, he⟩ := List.getElem?_eq_some_iff.1 h
    refine ⟨hi, he, fun j hj hej => ?_⟩
    have hne := List.pairwise_iff_getElem.1 t.nodup_keys j i (Nat.lt_trans hj hi) hi hj
    exact hne (hej.trans he.symm)

theorem lt_size_of_position? {t : Table κ α} {key : κ} {i : Nat}
    (h : t.position? key = some i) : i < t.size := by
  obtain ⟨_, hat⟩ := position?_eq_some_iff.mp h
  exact (List.getElem?_eq_some_iff.mp hat).1

theorem position?_eq_none_iff {t : Table κ α} {key : κ} :
    t.position? key = none ↔ key ∉ t.keys := by
  simp [position?]

/-! ## Setting a key -/

theorem lookup_upsertEntries {es : List (κ × α)} {key k : κ} {f : Option α → α} :
    (upsertEntries key f es).lookup k =
      if k = key then some (f (es.lookup key)) else es.lookup k := by
  induction es with
  | nil => rw [upsertEntries, lookup_cons]; rfl
  | cons e es ih =>
    by_cases hk : e.1 = key
    · subst hk
      rw [upsertEntries, if_pos rfl, lookup_cons, lookup_cons, lookup_cons, if_pos rfl]
      by_cases h : k = e.1
      · rw [if_pos h, if_pos h]
      · rw [if_neg h, if_neg h, if_neg h]
    · have hne : key ≠ e.1 := fun h => hk h.symm
      rw [upsertEntries, if_neg hk, lookup_cons, ih, lookup_cons (k := key), if_neg hne,
        lookup_cons]
      by_cases h : k = e.1
      · have hkey : k ≠ key := fun h' => hk (h.symm.trans h')
        rw [if_pos h, if_neg hkey, if_pos h]
      · rw [if_neg h, if_neg h]

theorem find?_upsert {t : Table κ α} {key k : κ} {f : Option α → α} :
    (t.upsert key f).find? k = if k = key then some (f (t.find? key)) else t.find? k :=
  lookup_upsertEntries

theorem find?_insert {t : Table κ α} {key k : κ} {a : α} :
    (t.insert key a).find? k = if k = key then some a else t.find? k :=
  find?_upsert

theorem mem_entries_upsert {t : Table κ α} {key k : κ} {f : Option α → α} {a : α} :
    (k, a) ∈ (t.upsert key f).entries ↔
      if k = key then a = f (t.find? key) else (k, a) ∈ t.entries := by
  rw [← find?_eq_some_iff, find?_upsert]
  split
  · rw [Option.some.injEq, eq_comm]
  · exact find?_eq_some_iff

theorem mem_entries_insert {t : Table κ α} {key : κ} {a : α} {entry : κ × α}
    (h : entry ∈ (t.insert key a).entries) : entry = (key, a) ∨ entry ∈ t.entries := by
  obtain ⟨k, b⟩ := entry
  have hupsert := mem_entries_upsert.mp h
  split at hupsert
  · next heq => exact Or.inl (by rw [heq, hupsert])
  · exact Or.inr hupsert

/-- A new key goes to the end. -/
theorem upsertEntries_of_not_mem {es : List (κ × α)} {key : κ} {f : Option α → α}
    (h : key ∉ es.map Prod.fst) : upsertEntries key f es = es ++ [(key, f none)] := by
  induction es with
  | nil => rfl
  | cons e es ih =>
    rw [List.map_cons, List.mem_cons, not_or] at h
    rw [upsertEntries, if_neg fun heq => h.1 heq.symm, ih h.2, List.cons_append]

theorem upsertEntries_append {es : List (κ × α)} {key : κ} {f : Option α → α} {a : α}
    (h : key ∉ es.map Prod.fst) :
    upsertEntries key f (es ++ [(key, a)]) = es ++ [(key, f (some a))] := by
  induction es with
  | nil => rw [List.nil_append, upsertEntries, if_pos rfl, List.nil_append]
  | cons e es ih =>
    rw [List.map_cons, List.mem_cons, not_or] at h
    rw [List.cons_append, upsertEntries, if_neg fun heq => h.1 heq.symm, ih h.2,
      List.cons_append]

/-- Entries with new keys go to the end in their order. -/
theorem entries_insertAll {t : Table κ α} {es : List (κ × α)}
    (h : ((t.entries ++ es).map Prod.fst).Nodup) :
    (t.insertAll es).entries = t.entries ++ es := by
  induction es generalizing t with
  | nil => rw [List.append_nil]; rfl
  | cons e es ih =>
    rw [List.append_cons] at h
    have hnew : e.1 ∉ t.entries.map Prod.fst := by
      rw [List.map_append, List.map_append, List.append_assoc, List.nodup_append] at h
      exact fun hmem => h.2.2 _ hmem _ List.mem_cons_self rfl
    have hentries : (t.insert e.1 e.2).entries = t.entries ++ [e] :=
      upsertEntries_of_not_mem hnew
    rw [insertAll, List.foldl_cons, ← insertAll, ih (by rwa [hentries]), hentries,
      List.append_assoc, List.singleton_append]

theorem insertAll_entries (t : Table κ α) : (∅ : Table κ α).insertAll t.entries = t :=
  Table.ext (entries_insertAll t.nodup)

theorem map_fst_upsertEntries {es : List (κ × α)} {key : κ} {f : Option α → α} :
    (upsertEntries key f es).map Prod.fst =
      if key ∈ es.map Prod.fst then es.map Prod.fst else es.map Prod.fst ++ [key] := by
  induction es with
  | nil => simp [upsertEntries]
  | cons e es ih =>
    by_cases hk : e.1 = key
    · simp [upsertEntries, hk]
    · have hne : key ≠ e.1 := fun h => hk h.symm
      rw [upsertEntries, if_neg hk, List.map_cons, ih, List.map_cons]
      by_cases hm : key ∈ es.map Prod.fst
      · rw [if_pos hm, if_pos (List.mem_cons_of_mem _ hm)]
      · rw [if_neg hm, if_neg (List.not_mem_cons_of_ne_of_not_mem hne hm), List.cons_append]

theorem keys_upsert {t : Table κ α} {key : κ} {f : Option α → α} :
    (t.upsert key f).keys = if key ∈ t.keys then t.keys else t.keys ++ [key] :=
  map_fst_upsertEntries

theorem getElem?_upsertEntries {es : List (κ × α)} (h : (es.map Prod.fst).Nodup) {key k : κ}
    {f : Option α → α} {a : α} {i : Nat} (hi : es[i]? = some (k, a)) :
    (upsertEntries key f es)[i]? = some (k, if k = key then f (some a) else a) := by
  induction es generalizing i with
  | nil => cases hi
  | cons e es ih =>
    have ⟨he, hes⟩ := List.nodup_cons.1 h
    cases i with
    | zero =>
      rw [List.getElem?_cons_zero, Option.some.injEq] at hi
      subst hi
      by_cases hk : k = key
      · subst hk
        rw [upsertEntries, if_pos rfl, if_pos rfl]
        rfl
      · rw [upsertEntries, if_neg hk, if_neg hk]
        rfl
    | succ i =>
      rw [List.getElem?_cons_succ] at hi
      rw [upsertEntries]
      split
      · next hk =>
        have hne : k ≠ key := by
          rintro rfl
          exact he (List.mem_map.2 ⟨(k, a), List.mem_of_getElem? hi, hk.symm⟩)
        rw [List.getElem?_cons_succ, hi, if_neg hne]
      · rw [List.getElem?_cons_succ, ih hes hi]

/-- Setting a key moves no entry. -/
theorem at?_upsert {t : Table κ α} {key k : κ} {f : Option α → α} {a : α} {i : Nat}
    (h : t.at? i = some (k, a)) :
    (t.upsert key f).at? i = some (k, if k = key then f (some a) else a) :=
  getElem?_upsertEntries t.nodup h

theorem position?_upsert {t : Table κ α} {key k : κ} {f : Option α → α} {i : Nat}
    (h : t.position? k = some i) : (t.upsert key f).position? k = some i := by
  obtain ⟨a, ha⟩ := position?_eq_some_iff.1 h
  exact position?_eq_some_iff.2 ⟨_, at?_upsert ha⟩

/-- An entry of the changed table was at its place before, or is the new one. -/
theorem at?_upsert_cases {t : Table κ α} {key k : κ} {f : Option α → α} {b : α} {i : Nat}
    (h : (t.upsert key f).at? i = some (k, b)) :
    (∃ a, t.at? i = some (k, a) ∧ b = if k = key then f (some a) else a) ∨
      t.at? i = none ∧ b = f none := by
  cases hi : t.at? i with
  | some entry =>
    rw [at?_upsert (k := entry.1) (a := entry.2) hi, Option.some.injEq, Prod.mk.injEq] at h
    obtain ⟨rfl, rfl⟩ := h
    exact Or.inl ⟨entry.2, rfl, rfl⟩
  | none =>
    refine Or.inr ⟨rfl, ?_⟩
    have hnew : t.find? k = none := by
      rw [find?_eq_none_iff, ← position?_eq_none_iff, Option.eq_none_iff_forall_ne_some]
      intro j hj
      have hj' : (t.upsert key f).position? k = some j := position?_upsert hj
      rw [position?_eq_some_iff.2 ⟨b, h⟩, Option.some.injEq] at hj'
      subst hj'
      obtain ⟨a, ha⟩ := position?_eq_some_iff.1 hj
      rw [hi] at ha
      cases ha
    have hfind := find?_eq_some_iff.2 (List.mem_of_getElem? h)
    rw [find?_upsert] at hfind
    split at hfind
    · next hk => rw [← hk, hnew, Option.some.injEq] at hfind; exact hfind.symm
    · rw [hnew] at hfind; cases hfind

theorem mem_map_snd_upsertEntries {es : List (κ × α)} {key : κ} {f : Option α → α} {a : α}
    (h : a ∈ (upsertEntries key f es).map Prod.snd) :
    a ∈ es.map Prod.snd ∨ a = f none ∨ ∃ b ∈ es.map Prod.snd, a = f (some b) := by
  induction es with
  | nil =>
    rw [upsertEntries, List.map_singleton, List.mem_singleton] at h
    exact Or.inr (Or.inl h)
  | cons e es ih =>
    by_cases hk : e.1 = key
    · rw [upsertEntries, if_pos hk, List.map_cons] at h
      rcases List.mem_cons.1 h with rfl | h
      · exact Or.inr (Or.inr ⟨e.2, List.mem_cons_self, rfl⟩)
      · exact Or.inl (List.mem_cons_of_mem _ h)
    · rw [upsertEntries, if_neg hk, List.map_cons] at h
      rcases List.mem_cons.1 h with rfl | h
      · exact Or.inl List.mem_cons_self
      · rcases ih h with h | h | ⟨b, hb, h⟩
        · exact Or.inl (List.mem_cons_of_mem _ h)
        · exact Or.inr (Or.inl h)
        · exact Or.inr (Or.inr ⟨b, List.mem_cons_of_mem _ hb, h⟩)

/-- A value of the changed table was there before or is what `f` computed. -/
theorem mem_values_upsert {t : Table κ α} {key : κ} {f : Option α → α} {a : α}
    (h : a ∈ (t.upsert key f).values) :
    a ∈ t.values ∨ a = f none ∨ ∃ b ∈ t.values, a = f (some b) :=
  mem_map_snd_upsertEntries h

end LookUp

/-! ## Changing every value -/

@[simp] theorem keys_map {β : Type} {t : Table κ α} {f : α → β} : (t.map f).keys = t.keys := by
  rw [keys, map, List.map_map]
  rfl

theorem at?_map {β : Type} {t : Table κ α} {f : α → β} {i : Nat} :
    (t.map f).at? i = (t.at? i).map fun entry => (entry.1, f entry.2) := by
  rw [at?, map, List.getElem?_map]
  rfl

theorem lookup_map_entries {β : Type} [DecidableEq κ] {es : List (κ × α)} {f : κ → α → β}
    {key : κ} : (es.map fun entry => (entry.1, f entry.1 entry.2)).lookup key =
      (es.lookup key).map (f key) := by
  induction es with
  | nil => rfl
  | cons entry es ih =>
      rw [List.map_cons, lookup_cons, lookup_cons, ih]
      split
      · next heq => rw [heq, Option.map_some]
      · rfl

theorem find?_map {β : Type} [DecidableEq κ] {t : Table κ α} {f : α → β} {key : κ} :
    (t.map f).find? key = (t.find? key).map f :=
  lookup_map_entries (f := fun _ => f)

/-! ## Changing a value in place -/

@[simp] theorem keys_modifyAt {t : Table κ α} {i : Nat} {f : α → α} :
    (t.modifyAt i f).keys = t.keys :=
  map_fst_modify t.entries i f

@[simp] theorem size_modifyAt {t : Table κ α} {i : Nat} {f : α → α} :
    (t.modifyAt i f).size = t.size := by
  simp [modifyAt, size]

theorem at?_modifyAt {t : Table κ α} {i j : Nat} {f : α → α} :
    (t.modifyAt i f).at? j =
      (t.at? j).map fun entry => if i = j then (entry.1, f entry.2) else entry := by
  simp only [modifyAt, at?, List.getElem?_modify]
  by_cases h : i = j <;> simp [h]

/-- Only what a change does to the value at its position matters. -/
theorem modifyAt_congr {t : Table κ α} {i : Nat} {f g : α → α}
    (h : ∀ entry, t.at? i = some entry → f entry.2 = g entry.2) :
    t.modifyAt i f = t.modifyAt i g := by
  refine Table.ext (List.ext_getElem? fun j => ?_)
  change (t.modifyAt i f).at? j = (t.modifyAt i g).at? j
  rw [at?_modifyAt, at?_modifyAt]
  refine Option.map_congr fun entry hentry => ?_
  split
  · next heq => rw [h entry (heq ▸ hentry)]
  · rfl

theorem modifyAt_modifyAt {t : Table κ α} {i : Nat} {f g : α → α} :
    (t.modifyAt i f).modifyAt i g = t.modifyAt i fun a => g (f a) := by
  refine Table.ext (List.ext_getElem? fun j => ?_)
  change ((t.modifyAt i f).modifyAt i g).at? j = (t.modifyAt i fun a => g (f a)).at? j
  rw [at?_modifyAt, at?_modifyAt, at?_modifyAt, Option.map_map]
  refine Option.map_congr fun entry _ => ?_
  by_cases h : i = j <;> simp [h]

/-- A change that does nothing to the value at its position does nothing. -/
theorem modifyAt_eq_self {t : Table κ α} {i : Nat} {f : α → α}
    (h : ∀ entry, t.at? i = some entry → f entry.2 = entry.2) : t.modifyAt i f = t := by
  rw [modifyAt_congr (g := id) h]
  refine Table.ext (List.ext_getElem? fun j => ?_)
  change (t.modifyAt i id).at? j = t.at? j
  rw [at?_modifyAt]
  simp

end Descent.Table
