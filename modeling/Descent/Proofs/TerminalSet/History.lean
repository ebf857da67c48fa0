import Mathlib.Data.Finset.Card
import Descent.TerminalSet
import Descent.Proofs.TerminalSet.Blocks

/-!
# The history of a family of sets

A family of sets grows while its sets are changed, compared and united with each other.
To whoever does so the sets look like mathematical ones (`run_agrees_finite`): as to
their elements, and as to what an operation says about the change that it makes. Two
kinds of sets are compared with them: the increasing list, and any set that is kept as
bits. With both a union looks first whether there is anything to add.

A set is known by what it contains (`Kind.Holds`), whatever it is made of. That every
single operation does its part (`Kind.Faithful`) is enough for all histories.
-/

namespace Descent.TerminalSet

variable {σ β : Type}

/-- What is done with a family of sets, which are told by their places in it. -/
inductive Op
  | new
  | ofIds (ids : List Nat)
  | insert (i id : Nat)
  | contains (i id : Nat)
  | isSubset (i j : Nat)
  | union (i j : Nat)

/-- The set that an operation may change. One that is united with itself stays as it is. -/
def Op.target? : Op → Option Nat
  | .insert i _ => some i
  | .union i j => if i = j then none else some i
  | _ => none

/-- What can be done with sets of numbers. An insertion says whether the number was absent, a
union whether anything was added. -/
structure Operations (σ : Type) where
  empty : σ
  ofIds : List Nat → σ
  insert : σ → Nat → σ × Bool
  union : σ → σ → σ × Bool
  contains : σ → Nat → Bool
  isSubset : σ → σ → Bool

/-- A kind of sets of numbers: what can be done with them, and what they look like. -/
structure Kind (σ : Type) extends Operations σ where
  isEmpty : σ → Bool
  size : σ → Nat
  ids : σ → List Nat

/-! ## Histories -/

/-- Changes a set of a family, if it is there, and hands on what is said about it. -/
def change (sets : List σ) (i : Nat) (f : σ → σ × Bool) : List σ × Option Bool :=
  match sets[i]? with
  | some s => (sets.set i (f s).1, some (f s).2)
  | none => (sets, none)

namespace Operations

/-- Does one operation. There is no answer where a set is made, or is not there. -/
def step (k : Operations σ) (sets : List σ) : Op → List σ × Option Bool
  | .new => (sets ++ [k.empty], none)
  | .ofIds ids => (sets ++ [k.ofIds ids], none)
  | .insert i id => change sets i (k.insert · id)
  | .contains i id => (sets, sets[i]?.map (k.contains · id))
  | .isSubset i j => (sets, sets[i]?.bind fun s => sets[j]?.map (k.isSubset s))
  | .union i j =>
    match sets[j]? with
    | some t => change sets i (k.union · t)
    | none => (sets, none)

/-- Does one operation after the other and collects the answers. -/
def run (k : Operations σ) (sets : List σ) : List Op → List σ × List (Option Bool)
  | [] => (sets, [])
  | op :: ops =>
    let here := k.step sets op
    let there := run k here.1 ops
    (there.1, here.2 :: there.2)

/-- The set has the elements of a mathematical one. -/
def Holds (k : Operations σ) (s : σ) (elements : Finset Nat) : Prop :=
  ∀ id, k.contains s id = true ↔ id ∈ elements

end Operations

/-- Mathematical sets. A union adds something if it is larger than the set was. -/
def finite : Operations (Finset Nat) where
  empty := ∅
  ofIds := List.toFinset
  insert s id := (Insert.insert id s, decide (id ∉ s))
  union s t := (s ∪ t, decide (s.card < (s ∪ t).card))
  contains s id := decide (id ∈ s)
  isSubset s t := decide (s ⊆ t)

namespace Kind

/-- What can be seen of a set is what can be seen of a mathematical one. -/
structure Shows (k : Kind σ) (s : σ) (elements : Finset Nat) : Prop where
  rising : (k.ids s).Pairwise (· < ·)
  mem_ids (id : Nat) : id ∈ k.ids s ↔ id ∈ elements
  size : k.size s = elements.card
  isEmpty : k.isEmpty s = true ↔ elements = ∅
  contains (id : Nat) : k.contains s id = true ↔ id ∈ elements

/-- Every operation does to the elements what it does to those of mathematical sets. -/
structure Faithful (k : Kind σ) : Prop where
  shows {s : σ} {S : Finset Nat} (hs : k.Holds s S) : k.Shows s S
  empty : k.Holds k.empty finite.empty
  ofIds (ids : List Nat) : k.Holds (k.ofIds ids) (finite.ofIds ids)
  insert {s : σ} {S : Finset Nat} (hs : k.Holds s S) (id : Nat) :
    k.Holds (k.insert s id).1 (finite.insert S id).1 ∧
      (k.insert s id).2 = (finite.insert S id).2
  union {s t : σ} {S T : Finset Nat} (hs : k.Holds s S) (ht : k.Holds t T) :
    k.Holds (k.union s t).1 (finite.union S T).1 ∧ (k.union s t).2 = (finite.union S T).2
  isSubset {s t : σ} {S T : Finset Nat} (hs : k.Holds s S) (ht : k.Holds t T) :
    k.isSubset s t = finite.isSubset S T
  union_self (s : σ) : (k.union s s).1 = s

/-- A history of a family from its beginning looks like that of mathematical sets. -/
structure Agrees (k : Kind σ) (ops : List Op) : Prop where
  answers : (k.run [] ops).2 = (finite.run [] ops).2
  shows : List.Forall₂ k.Shows (k.run [] ops).1 (finite.run [] ops).1
  /-- A number is new to a set exactly if it was absent. -/
  isNew {s : σ} (hs : s ∈ (k.run [] ops).1) (id : Nat) :
    (k.insert s id).2 = true ↔ id ∉ k.ids s
  /-- A union adds something exactly if it makes the set larger. -/
  grows {s t : σ} (hs : s ∈ (k.run [] ops).1) (ht : t ∈ (k.run [] ops).1) :
    (k.union s t).2 = true ↔ k.size s < k.size (k.union s t).1
  /-- Whatever is done next leaves all sets alone but its target. -/
  keeps (op : Op) {i : Nat} {s : σ} (hs : (k.run [] ops).1[i]? = some s)
    (htarget : op.target? ≠ some i) : (k.step (k.run [] ops).1 op).1[i]? = some s

end Kind

section Families

variable {τ : Type} {R : σ → τ → Prop} {sets : List σ} {others : List τ} {i j : Nat}

theorem getElem?_of_forall₂ (h : List.Forall₂ R sets others) (i : Nat) :
    sets[i]? = none ∧ others[i]? = none ∨
      ∃ s t, sets[i]? = some s ∧ others[i]? = some t ∧ R s t := by
  induction h generalizing i with
  | nil => exact Or.inl ⟨rfl, rfl⟩
  | cons hst _ ih =>
      cases i with
      | zero => exact Or.inr ⟨_, _, rfl, rfl, hst⟩
      | succ i => exact ih i

theorem forall₂_set (h : List.Forall₂ R sets others) {s : σ} {t : τ} (hst : R s t) :
    List.Forall₂ R (sets.set i s) (others.set i t) := by
  induction h generalizing i with
  | nil => exact .nil
  | cons hhead htail ih =>
      cases i with
      | zero => exact .cons hst htail
      | succ i => exact .cons hhead ih

theorem change_of_forall₂ {f : σ → σ × Bool} {g : τ → τ × Bool} (h : List.Forall₂ R sets others)
    (hchange : ∀ {s t}, R s t → R (f s).1 (g t).1 ∧ (f s).2 = (g t).2) :
    List.Forall₂ R (change sets i f).1 (change others i g).1 ∧
      (change sets i f).2 = (change others i g).2 := by
  rcases getElem?_of_forall₂ h i with ⟨hs, ht⟩ | ⟨s, t, hs, ht, hst⟩
  · rw [change, change, hs, ht]
    exact ⟨h, rfl⟩
  · rw [change, change, hs, ht]
    obtain ⟨hrel, hflag⟩ := hchange hst
    exact ⟨forall₂_set h hrel, congrArg some hflag⟩

theorem getElem?_change_of_ne {f : σ → σ × Bool} (h : j ≠ i) :
    (change sets j f).1[i]? = sets[i]? := by
  unfold change
  split
  · exact List.getElem?_set_ne h
  · rfl

theorem change_eq_self {f : σ → σ × Bool} (h : ∀ s, sets[i]? = some s → (f s).1 = s) :
    (change sets i f).1 = sets := by
  unfold change
  split
  · next s hs =>
      obtain ⟨hi, heq⟩ := List.getElem?_eq_some_iff.mp hs
      rw [h s hs, ← heq]
      exact List.set_getElem_self hi
  · rfl

end Families

namespace Kind.Faithful

variable {k : Kind σ} {sets : List σ} {others : List (Finset Nat)} {i : Nat}

theorem step (hk : k.Faithful) (h : List.Forall₂ k.Holds sets others) (op : Op) :
    List.Forall₂ k.Holds (k.step sets op).1 (finite.step others op).1 ∧
      (k.step sets op).2 = (finite.step others op).2 := by
  cases op with
  | new => exact ⟨List.rel_append h (.cons hk.empty .nil), rfl⟩
  | ofIds ids => exact ⟨List.rel_append h (.cons (hk.ofIds ids) .nil), rfl⟩
  | insert i id => exact change_of_forall₂ h fun hs => hk.insert hs id
  | contains i id =>
      refine ⟨h, ?_⟩
      rcases getElem?_of_forall₂ h i with ⟨hs, hS⟩ | ⟨s, S, hs, hS, hsS⟩
      · simp only [Operations.step, hs, hS, Option.map_none]
      · simp only [Operations.step, hs, hS, Option.map_some]
        exact congrArg some (Bool.eq_iff_iff.mpr (by rw [hsS id]; simp [finite]))
  | isSubset i j =>
      refine ⟨h, ?_⟩
      rcases getElem?_of_forall₂ h i with ⟨hs, hS⟩ | ⟨s, S, hs, hS, hsS⟩
      · simp only [Operations.step, hs, hS, Option.bind_none]
      · rcases getElem?_of_forall₂ h j with ⟨ht, hT⟩ | ⟨t, T, ht, hT, htT⟩
        · simp only [Operations.step, hs, hS, ht, hT, Option.bind_some, Option.map_none]
        · simp only [Operations.step, hs, hS, ht, hT, Option.bind_some, Option.map_some]
          exact congrArg some (hk.isSubset hsS htT)
  | union i j =>
      rcases getElem?_of_forall₂ h j with ⟨ht, hT⟩ | ⟨t, T, ht, hT, htT⟩
      · simp only [Operations.step, ht, hT]
        exact ⟨h, trivial⟩
      · simp only [Operations.step, ht, hT]
        exact change_of_forall₂ h fun hs => hk.union hs htT

theorem run (hk : k.Faithful) (h : List.Forall₂ k.Holds sets others) (ops : List Op) :
    List.Forall₂ k.Holds (k.run sets ops).1 (finite.run others ops).1 ∧
      (k.run sets ops).2 = (finite.run others ops).2 := by
  induction ops generalizing sets others with
  | nil => exact ⟨h, rfl⟩
  | cons op ops ih =>
      obtain ⟨hsets, hanswer⟩ := hk.step h op
      obtain ⟨hrest, hanswers⟩ := ih hsets
      rw [Operations.run, Operations.run]
      exact ⟨hrest, by rw [hanswer, hanswers]⟩

theorem step_keeps (hk : k.Faithful) {op : Op} {s : σ} (hs : sets[i]? = some s)
    (htarget : op.target? ≠ some i) : (k.step sets op).1[i]? = some s := by
  have hinside : i < sets.length := (List.getElem?_eq_some_iff.mp hs).1
  cases op with
  | new => exact (List.getElem?_append_left hinside).trans hs
  | ofIds ids => exact (List.getElem?_append_left hinside).trans hs
  | insert j id =>
      have hne : j ≠ i := fun heq => htarget (congrArg some heq)
      exact (getElem?_change_of_ne hne).trans hs
  | contains j id => exact hs
  | isSubset j l => exact hs
  | union j l =>
      cases ht : sets[l]? with
      | none => simpa only [Operations.step, ht] using hs
      | some t =>
          simp only [Operations.step, ht]
          -- The target stays as it is only if it is what is added, too.
          by_cases heq : j = l
          · subst heq
            have hself : ∀ s, sets[j]? = some s → (k.union s t).1 = s := by
              intro s hs'
              rw [Option.some.inj (hs'.symm.trans ht)]
              exact hk.union_self t
            rw [change_eq_self hself]
            exact hs
          · have hne : j ≠ i := fun h => htarget (by rw [Op.target?, if_neg heq, h])
            exact (getElem?_change_of_ne hne).trans hs

/-- Every set that comes up in a history has the elements of a mathematical one. -/
theorem exists_holds (hk : k.Faithful) (ops : List Op) {s : σ} (hs : s ∈ (k.run [] ops).1) :
    ∃ S, k.Holds s S := by
  have hstart : List.Forall₂ k.Holds [] [] := .nil
  obtain ⟨i, hi⟩ := List.mem_iff_getElem?.mp hs
  rcases getElem?_of_forall₂ (hk.run hstart ops).1 i with ⟨hnone, -⟩ | ⟨s', S, hs', -, hS⟩
  · rw [hi] at hnone
    cases hnone
  · rw [Option.some.inj (hi.symm.trans hs')]
    exact ⟨S, hS⟩

theorem agrees (hk : k.Faithful) (ops : List Op) : k.Agrees ops := by
  have hstart : List.Forall₂ k.Holds [] [] := .nil
  obtain ⟨hsets, hanswers⟩ := hk.run hstart ops
  refine ⟨hanswers, hsets.imp fun _ _ => hk.shows, ?_, ?_, fun op _ _ => hk.step_keeps⟩
  · intro s hs id
    obtain ⟨S, hS⟩ := hk.exists_holds ops hs
    rw [(hk.insert hS id).2, (hk.shows hS).mem_ids]
    exact decide_eq_true_iff
  · intro s t hs ht
    obtain ⟨S, hS⟩ := hk.exists_holds ops hs
    obtain ⟨T, hT⟩ := hk.exists_holds ops ht
    obtain ⟨hunion, hflag⟩ := hk.union hS hT
    rw [hflag, (hk.shows hS).size, (hk.shows hunion).size]
    exact decide_eq_true_iff

end Kind.Faithful

/-! ## Two kinds -/

def increasing : Kind TerminalSet where
  empty := ∅
  ofIds := ofList
  insert := insertNew
  union := addAll
  contains := contains
  isSubset := isSubset
  isEmpty := isEmpty
  size := size
  ids := ids

/-- Sets that are kept as bits. What is a part of a set already is not added to it. -/
def Kind.ofBits (bits : Bits β) : Kind β where
  empty := bits.empty
  ofIds := bits.collect
  insert := bits.insert
  union s t := if bits.isSubset t s then (s, false) else (bits.union s t, true)
  contains := bits.contains
  isSubset := bits.isSubset
  isEmpty := bits.isEmpty
  size := bits.size
  ids := bits.ids

section Kinds

variable {k : Kind σ} {s t u : σ} {S T : Finset Nat} {bits : Bits β}

theorem shows_of_ids (hs : k.Holds s S) (hrising : (k.ids s).Pairwise (· < ·))
    (hmem : ∀ id, id ∈ k.ids s ↔ k.contains s id = true) (hsize : k.size s = (k.ids s).length)
    (hempty : k.isEmpty s = true ↔ ∀ id, id ∉ k.ids s) : k.Shows s S where
  rising := hrising
  mem_ids id := (hmem id).trans (hs id)
  size := by
    have hset : (k.ids s).toFinset = S := by
      ext id
      rw [List.mem_toFinset, hmem, hs]
    have hnodup : (k.ids s).Nodup := hrising.imp Nat.ne_of_lt
    rw [hsize, ← List.toFinset_card_of_nodup hnodup, hset]
  isEmpty := by
    rw [hempty, Finset.eq_empty_iff_forall_notMem]
    exact forall_congr' fun id => not_congr ((hmem id).trans (hs id))
  contains := hs

theorem card_lt_card_union_iff : S.card < (S ∪ T).card ↔ ¬ T ⊆ S := by
  constructor
  · intro hlt hsubset
    rw [Finset.union_eq_left.mpr hsubset] at hlt
    exact Nat.lt_irrefl _ hlt
  · intro hnot
    refine Finset.card_lt_card ⟨Finset.subset_union_left, fun hsubset => hnot ?_⟩
    exact Finset.subset_union_right.trans hsubset

/-- A union that looks first whether there is anything to add. -/
theorem union_of_part (hs : k.Holds s S) (hu : k.Holds u (S ∪ T)) {part : Bool}
    (hpart : part = decide (T ⊆ S)) :
    k.Holds (if part then (s, false) else (u, true)).1 (finite.union S T).1 ∧
      (if part then (s, false) else (u, true)).2 = (finite.union S T).2 := by
  subst hpart
  show _ ∧ _ = decide (S.card < (S ∪ T).card)
  by_cases hsubset : T ⊆ S
  · have hlt := mt card_lt_card_union_iff.mp (not_not_intro hsubset)
    have hunion : (finite.union S T).1 = S := Finset.union_eq_left.mpr hsubset
    rw [if_pos (decide_eq_true hsubset), hunion, decide_eq_false hlt]
    exact ⟨hs, rfl⟩
  · have hlt := card_lt_card_union_iff.mpr hsubset
    rw [if_neg (by simpa using hsubset), decide_eq_true hlt]
    exact ⟨hu, rfl⟩

theorem holds_increasing {s : TerminalSet} : increasing.Holds s S ↔ ∀ id, id ∈ s ↔ id ∈ S :=
  forall_congr' fun _ => iff_congr contains_iff Iff.rfl

theorem not_contains_of_holds {id : Nat} (hs : k.Holds s S) :
    (!k.contains s id) = decide (id ∉ S) := by
  rw [decide_not, ← Bool.eq_iff_iff.mpr ((hs id).trans decide_eq_true_iff.symm)]

theorem isSubset_of_holds (hs : k.Holds s S) (ht : k.Holds t T)
    (h : k.isSubset s t = true ↔ ∀ id, k.contains s id = true → k.contains t id = true) :
    k.isSubset s t = decide (S ⊆ T) := by
  rw [Bool.eq_iff_iff, h, decide_eq_true_iff]
  exact forall_congr' fun id => imp_congr (hs id) (ht id)

theorem faithful_increasing : increasing.Faithful where
  shows {s S} hs := shows_of_ids hs s.sorted (fun _ => contains_iff.symm) rfl
    (List.isEmpty_iff.trans List.eq_nil_iff_forall_not_mem)
  empty := holds_increasing.mpr (by simp [increasing, finite])
  ofIds ids := holds_increasing.mpr (by simp [increasing, finite])
  insert {s S} hs id := by
    have hmem := holds_increasing.mp hs
    refine ⟨holds_increasing.mpr fun other => ?_, ?_⟩
    · show other ∈ (s.insertNew id).1 ↔ other ∈ Insert.insert id S
      rw [mem_insertNew, Finset.mem_insert, hmem]
    · show (s.insertNew id).2 = decide (id ∉ S)
      rw [insertNew_snd]
      exact not_contains_of_holds hs
  union {s t S T} hs ht := by
    refine union_of_part hs (u := s ∪ t) (holds_increasing.mpr fun id => ?_) ?_
    · rw [mem_union, Finset.mem_union, holds_increasing.mp hs, holds_increasing.mp ht]
    · exact isSubset_of_holds ht hs (by simp [increasing])
  isSubset hs ht := isSubset_of_holds hs ht (by simp [increasing])
  union_self s := by
    show (s.addAll s).1 = s
    rw [addAll_eq_self fun _ h => h]

theorem faithful_ofBits (hbits : bits.Lawful) : (Kind.ofBits bits).Faithful where
  shows {s S} hs := by
    have hmem : ∀ id, id ∈ bits.ids s ↔ bits.contains s id = true := by
      intro id
      rw [hbits.ids_eq, List.mem_filter, List.mem_range]
      exact and_iff_right_of_imp (hbits.lt_capacity s id)
    refine shows_of_ids hs ?_ hmem ?_ ?_
    · show (bits.ids s).Pairwise (· < ·)
      rw [hbits.ids_eq]
      exact List.pairwise_lt_range.filter _
    · show bits.size s = (bits.ids s).length
      rw [hbits.size_eq, hbits.ids_eq, List.countP_eq_length_filter]
    · show bits.isEmpty s = true ↔ _
      rw [hbits.isEmpty_iff]
      exact forall_congr' fun id => Bool.eq_false_iff.trans (not_congr (hmem id).symm)
  empty id := by
    show bits.contains bits.empty id = true ↔ id ∈ (∅ : Finset Nat)
    simp [hbits.contains_empty]
  ofIds ids id := by
    show bits.contains (bits.collect ids) id = true ↔ id ∈ ids.toFinset
    rw [hbits.contains_collect, List.mem_toFinset]
  insert {s S} hs id := by
    refine ⟨fun other => ?_, ?_⟩
    · show bits.contains (bits.insert s id).1 other = true ↔ other ∈ Insert.insert id S
      rw [hbits.contains_insert, Finset.mem_insert]
      exact or_congr_right (hs other)
    · show (bits.insert s id).2 = decide (id ∉ S)
      rw [hbits.insert_isNew]
      exact not_contains_of_holds hs
  union {s t S T} hs ht := by
    refine union_of_part hs (u := bits.union s t) (fun id => ?_) ?_
    · show bits.contains (bits.union s t) id = true ↔ id ∈ S ∪ T
      rw [hbits.contains_union, Bool.or_eq_true, Finset.mem_union]
      exact or_congr (hs id) (ht id)
    · exact isSubset_of_holds ht hs (hbits.isSubset_iff t s)
  isSubset {s t S T} hs ht := isSubset_of_holds hs ht (hbits.isSubset_iff s t)
  union_self s := by
    have hpart : bits.isSubset s s = true := (hbits.isSubset_iff s s).mpr fun _ h => h
    show (if bits.isSubset s s then (s, false) else (bits.union s s, true)).1 = s
    rw [if_pos hpart]

/-- Over all operations on a family of sets, the increasing list looks like a mathematical set,
and so does any set that is kept as bits. -/
theorem run_agrees_finite (hbits : bits.Lawful) (ops : List Op) :
    increasing.Agrees ops ∧ (Kind.ofBits bits).Agrees ops :=
  ⟨faithful_increasing.agrees ops, (faithful_ofBits hbits).agrees ops⟩

/-- Two sets, one of them with a number that has its bit in a second block. -/
def unevenHistory : List Op :=
  [.new, .ofIds [40, 3, 40], .insert 0 3, .isSubset 0 1, .isSubset 1 0, .union 0 1, .union 0 1,
    .union 1 1, .insert 1 3, .contains 0 40]

theorem run_agrees_finite_blocks :
    Blocks.bits.Lawful ∧
      (increasing.run [] unevenHistory).2 = ((Kind.ofBits Blocks.bits).run [] unevenHistory).2 ∧
      ((Kind.ofBits Blocks.bits).run [] unevenHistory).2 =
        [none, none, some true, some true, some false, some true, some false, some false,
          some false, some true] ∧
      List.Forall₂ (Kind.ofBits Blocks.bits).Shows ((Kind.ofBits Blocks.bits).run [] unevenHistory).1
        [{3, 40}, {3, 40}] := by
  obtain ⟨hincreasing, hblocks⟩ := run_agrees_finite Blocks.lawful_bits unevenHistory
  have hanswers : (finite.run [] unevenHistory).2 =
      [none, none, some true, some true, some false, some true, some false, some false,
        some false, some true] := by
    decide
  have hsets : (finite.run [] unevenHistory).1 = [{3, 40}, {3, 40}] := by decide
  exact ⟨Blocks.lawful_bits, hincreasing.answers.trans hblocks.answers.symm,
    hblocks.answers.trans hanswers, hsets ▸ hblocks.shows⟩

end Kinds

end Descent.TerminalSet
