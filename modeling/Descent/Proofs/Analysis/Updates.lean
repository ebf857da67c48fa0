import Descent.Proofs.Analysis.SameTable

/-!
# What an update reports

The loops of the analysis go by the flags of the updates: a flag that is up for
nothing would keep a loop going, and one that stays down would end it early. The
flags are exact in every state of the table (`updates_report_changes`), and apart
from what they report nothing changes.

An update computes all that a right side contributes and then puts it into the
table at once. The same table and the same flag come out when the tokens are
looked at in turn and whatever one of them contributes goes into the table before
the next is looked at, with the owner's own sets passed over (`InTurn`). What is
put in early may be read again further on, where the owner is mentioned, but then
the owner has it already.
-/

namespace Descent

namespace TerminalSet

variable {s t u : TerminalSet}

/-- What is in a set already makes no difference to what is added to it. -/
theorem addAll_congr (h : ∀ id, id ∈ s ∨ id ∈ t ↔ id ∈ s ∨ id ∈ u) :
    s.addAll t = s.addAll u := by
  have hunion : s ∪ t = s ∪ u := TerminalSet.ext fun id => by
    rw [mem_union, mem_union, h id]
  have hsubset : t.isSubset s = u.isSubset s := by
    rw [Bool.eq_iff_iff, isSubset_iff, isSubset_iff]
    constructor
    · exact fun ht id hid => ((h id).mpr (Or.inr hid)).elim (fun h => h) (ht id)
    · exact fun hu id hid => ((h id).mp (Or.inr hid)).elim (fun h => h) (hu id)
  rw [addAll, addAll, hunion, hsubset]

/-- Adding two sets one after the other is adding them at once. -/
theorem addAll_addAll :
    (((s.addAll t).1.addAll u).1, (s.addAll t).2 || ((s.addAll t).1.addAll u).2) =
      s.addAll (t ∪ u) := by
  refine Prod.ext (TerminalSet.ext fun id => ?_) ?_
  · rw [mem_addAll, mem_addAll, mem_addAll, mem_union, or_assoc]
  · rw [Bool.eq_iff_iff, Bool.or_eq_true, Analysis.addAll_snd_iff,
      Analysis.addAll_snd_iff, Analysis.addAll_snd_iff]
    simp only [mem_union, mem_addAll, not_or]
    constructor
    · rintro (⟨id, ht, hs⟩ | ⟨id, hu, hs, -⟩)
      · exact ⟨id, Or.inl ht, hs⟩
      · exact ⟨id, Or.inr hu, hs⟩
    · rintro ⟨id, htu, hs⟩
      by_cases ht : id ∈ t
      · exact Or.inl ⟨id, ht, hs⟩
      · exact Or.inr ⟨id, htu.resolve_left ht, hs, ht⟩

/-- The flag of `addAll` is up exactly when the set is another one afterwards. -/
theorem addAll_reports : (s.addAll t).2 = true ↔ (s.addAll t).1 ≠ s := by
  constructor
  · intro h heq
    obtain ⟨id, hid, hnot⟩ := Analysis.addAll_snd_iff.mp h
    exact hnot (heq ▸ mem_addAll.mpr (Or.inr hid))
  · intro hne
    cases hflag : (s.addAll t).2 with
    | false => exact absurd (addAll_eq_self_of_snd hflag) hne
    | true => rfl

/-- Inserting an element is adding the set of it. -/
theorem insertNew_eq (id : Nat) : s.insertNew id = s.addAll (singleton id) := by
  refine Prod.ext (TerminalSet.ext fun k => ?_) ?_
  · rw [mem_insertNew, mem_addAll, mem_singleton, or_comm]
  · simp [insertNew_snd, addAll_snd, isSubset, contains, singleton]

end TerminalSet

namespace Analysis

variable {symbols : SymbolTable} {mode : Mode} {owner : Nat} {tokens : List Token}

/-! ## One token after the other -/

namespace InTurn

/-- Looks at the tokens of a right side and puts what each of them contributes into
the owner, until one cannot vanish. -/
def updateFirst (mode : Mode) (owner : Nat) :
    SymbolTable → List Token → SymbolTable × Bool
  | symbols, [] => changeAt symbols owner Symbol.markNullable
  | symbols, .terminal id :: _ =>
    match mode with
    | .firstOnly => (symbols, false)
    | .follow => changeAt symbols owner fun symbol => symbol.insertFirst id
  | symbols, .nonterminal n :: rest =>
    let here :=
      if n = owner then (symbols, false)
      else changeAt symbols owner fun symbol => symbol.addFirst (firstAt symbols n)
    if nullableAt here.1 n then
      let there := updateFirst mode owner here.1 rest
      (there.1, here.2 || there.2)
    else
      here

/-- Adds what tokens can begin with to a set, and says whether all of them can
vanish. -/
def collect (symbols : SymbolTable) : TerminalSet → List Token → TerminalSet × Bool
  | set, [] => (set, true)
  | set, .terminal id :: _ => ((set.insertNew id).1, false)
  | set, .nonterminal n :: rest =>
    let grown := (set.addAll (firstAt symbols n)).1
    if nullableAt symbols n then collect symbols grown rest else (grown, false)

/-- What follows a symbol in front of some tokens; what follows the owner is passed
over where the symbol is the owner. -/
def followOf (symbols : SymbolTable) (owner target : Nat) (rest : List Token) :
    TerminalSet :=
  let ahead := collect symbols ∅ rest
  if ahead.2 && target != owner then (ahead.1.addAll (followAt symbols owner)).1
  else ahead.1

/-- Updates the FOLLOW sets of the symbols in a right side, from left to right. -/
def updateFollow (owner : Nat) : SymbolTable → List Token → SymbolTable × Bool
  | symbols, [] => (symbols, false)
  | symbols, .terminal _ :: rest => updateFollow owner symbols rest
  | symbols, .nonterminal n :: rest =>
    let here := changeAt symbols n fun symbol =>
      symbol.addFollow (followOf symbols owner n rest)
    let there := updateFollow owner here.1 rest
    (there.1, here.2 || there.2)

end InTurn

/-! ## Changing one symbol twice -/

section Change

variable {n : Nat} {change next : Symbol → Symbol × Bool}

theorem changeAt_congr
    (h : ∀ symbol, symbolAt? symbols n = some symbol → change symbol = next symbol) :
    changeAt symbols n change = changeAt symbols n next := by
  have htable : symbols.modifyAt n (fun symbol => (change symbol).1) =
      symbols.modifyAt n fun symbol => (next symbol).1 :=
    Table.modifyAt_congr fun entry hentry => by
      rw [h entry.2 (by rw [symbolAt?, hentry]; rfl)]
  have hflag : (symbolAt? symbols n).any (fun symbol => (change symbol).2) =
      (symbolAt? symbols n).any fun symbol => (next symbol).2 := by
    cases hat : symbolAt? symbols n with
    | none => rfl
    | some symbol => exact congrArg Prod.snd (h symbol hat)
  rw [changeAt, changeAt, htable, hflag]

theorem changeAt_changeAt :
    ((changeAt (changeAt symbols n change).1 n next).1,
        (changeAt symbols n change).2 ||
          (changeAt (changeAt symbols n change).1 n next).2) =
      changeAt symbols n fun symbol =>
        ((next (change symbol).1).1, (change symbol).2 || (next (change symbol).1).2) := by
  have htwice : (symbolAt? (changeAt symbols n change).1 n).any (fun s => (next s).2) =
      (symbolAt? symbols n).any fun s => (next (change s).1).2 := by
    rw [symbolAt?_changeAt, if_pos rfl, Option.any_map]
  unfold changeAt at htwice ⊢
  rw [Table.modifyAt_modifyAt, htwice]
  refine Prod.ext rfl ?_
  cases symbolAt? symbols n <;> rfl

theorem changeAt_unchanged :
    changeAt symbols n (fun symbol => (symbol, false)) = (symbols, false) := by
  rw [changeAt, Table.modifyAt_eq_self fun _ _ => rfl]
  cases symbolAt? symbols n <;> rfl

end Change

section Absorb

variable {set first first' : TerminalSet} {nullable : Bool} {symbol : Symbol}

theorem absorb_congr
    (h : ∀ t, t ∈ symbol.first ∨ t ∈ first ↔ t ∈ symbol.first ∨ t ∈ first') :
    absorb first nullable symbol = absorb first' nullable symbol := by
  unfold absorb Symbol.addFirst
  rw [TerminalSet.addAll_congr h]

/-- Adding to FIRST and then absorbing is absorbing both at once. -/
theorem absorb_addFirst :
    ((absorb first nullable (symbol.addFirst set).1).1,
        (symbol.addFirst set).2 || (absorb first nullable (symbol.addFirst set).1).2) =
      absorb (set ∪ first) nullable symbol := by
  unfold absorb
  simp only [Symbol.addFirst, ← TerminalSet.addAll_addAll]
  cases nullable with
  | false => rfl
  | true => exact congrArg (Prod.mk _) (Bool.or_assoc ..).symm

end Absorb

/-! ## The update of FIRST, token by token -/

/-- A symbol has its own FIRST set. -/
theorem addFirst_own {n : Nat} :
    changeAt symbols n (·.addFirst (firstAt symbols n)) = (symbols, false) := by
  rw [← changeAt_unchanged]
  refine changeAt_congr fun symbol hat => ?_
  rw [firstAt_of_symbolAt hat, Symbol.addFirst, TerminalSet.addAll_eq_self fun _ h => h]

theorem mem_firstAt_addFirst {n t : Nat} {set : TerminalSet} :
    t ∈ set ∨ t ∈ firstAt (changeAt symbols owner (·.addFirst set)).1 n ↔
      t ∈ set ∨ t ∈ firstAt symbols n := by
  rw [firstAt, firstAt, symbolAt?_changeAt]
  split
  · cases symbolAt? symbols n with
    | none => rfl
    | some symbol =>
        show t ∈ set ∨ t ∈ (symbol.first.addAll set).1 ↔ t ∈ set ∨ t ∈ symbol.first
        rw [TerminalSet.mem_addAll, or_left_comm, or_self, or_comm]
  · rfl

/-- What the owner takes in shows up again where a right side mentions the owner, and
nothing else does. -/
theorem mem_sequenceFirst_addFirst {t : Nat} {set : TerminalSet} :
    t ∈ set ∨ t ∈ sequenceFirst mode (changeAt symbols owner (·.addFirst set)).1 tokens ↔
      t ∈ set ∨ t ∈ sequenceFirst mode symbols tokens := by
  induction tokens with
  | nil => rfl
  | cons token rest ih =>
      cases token with
      | terminal id => rfl
      | nonterminal n =>
          rw [sequenceFirst, sequenceFirst, nullableAt_changeAt fun _ => rfl]
          split
          · rw [TerminalSet.mem_union, TerminalSet.mem_union, ← or_assoc,
              mem_firstAt_addFirst, or_right_comm, ih, or_right_comm, or_assoc]
          · exact mem_firstAt_addFirst

theorem sequenceNullable_changeAt {n : Nat} {change : Symbol → Symbol × Bool}
    (h : ∀ symbol, (change symbol).1.nullable = symbol.nullable) :
    sequenceNullable (changeAt symbols n change).1 tokens =
      sequenceNullable symbols tokens := by
  unfold sequenceNullable
  simp only [nullableAt_changeAt h]

theorem InTurn.updateFirst_eq :
    InTurn.updateFirst mode owner symbols tokens =
      changeAt symbols owner
        (absorb (sequenceFirst mode symbols tokens) (sequenceNullable symbols tokens)) := by
  induction tokens generalizing symbols with
  | nil => rfl
  | cons token rest ih =>
      cases token with
      | terminal id =>
          cases mode with
          | firstOnly => exact changeAt_unchanged.symm
          | follow =>
              refine changeAt_congr fun symbol _ => ?_
              show symbol.insertFirst id = symbol.addFirst (.singleton id)
              rw [Symbol.insertFirst, Symbol.addFirst, TerminalSet.insertNew_eq]
      | nonterminal n =>
          -- passing over the owner saves work only: adding its own set does nothing
          have hhere : (if n = owner then (symbols, false)
              else changeAt symbols owner (·.addFirst (firstAt symbols n))) =
              changeAt symbols owner (·.addFirst (firstAt symbols n)) := by
            split
            · next heq => rw [heq, addFirst_own]
            · rfl
          simp only [InTurn.updateFirst, hhere, sequenceFirst]
          rw [nullableAt_changeAt fun _ => rfl]
          split
          · next hnull =>
              have hvanish : sequenceNullable symbols (.nonterminal n :: rest) =
                  sequenceNullable symbols rest := by
                simp [sequenceNullable, hnull]
              rw [ih, changeAt_changeAt, hvanish, sequenceNullable_changeAt fun _ => rfl]
              refine changeAt_congr fun symbol _ => ?_
              rw [absorb_addFirst]
              refine absorb_congr fun t => or_congr_right ?_
              rw [TerminalSet.mem_union, mem_sequenceFirst_addFirst, TerminalSet.mem_union]
          · next hnull =>
              have hvanish : sequenceNullable symbols (.nonterminal n :: rest) = false := by
                simp [sequenceNullable, hnull]
              rw [hvanish]
              rfl

/-! ## The update of FOLLOW, token by token -/

theorem InTurn.mem_collect {set : TerminalSet} {t : Nat} :
    t ∈ (InTurn.collect symbols set tokens).1 ↔
      t ∈ set ∨ t ∈ sequenceFirst .follow symbols tokens := by
  induction tokens generalizing set with
  | nil => simp [InTurn.collect, sequenceFirst]
  | cons token rest ih =>
      cases token with
      | terminal id =>
          simp [InTurn.collect, sequenceFirst, terminalFirst, TerminalSet.mem_insertNew,
            or_comm]
      | nonterminal n =>
          rw [InTurn.collect, sequenceFirst]
          split
          · rw [ih, TerminalSet.mem_addAll, TerminalSet.mem_union, or_assoc]
          · exact TerminalSet.mem_addAll

theorem InTurn.collect_snd {set : TerminalSet} :
    (InTurn.collect symbols set tokens).2 = sequenceNullable symbols tokens := by
  induction tokens generalizing set with
  | nil => rfl
  | cons token rest ih =>
      cases token with
      | terminal id => rfl
      | nonterminal n =>
          rw [InTurn.collect]
          split
          · next hnull => simpa [sequenceNullable, hnull] using ih
          · next hnull => simp [sequenceNullable, hnull]

/-- The owner has what follows it, so there too passing it over changes nothing. -/
theorem InTurn.addFollow_followOf {n : Nat} {rest : List Token} :
    changeAt symbols n (·.addFollow (InTurn.followOf symbols owner n rest)) =
      changeAt symbols n (·.addFollow (Analysis.followOf symbols owner rest)) := by
  refine changeAt_congr fun symbol hat => ?_
  rw [Symbol.addFollow, Symbol.addFollow, TerminalSet.addAll_congr fun t => ?_]
  simp only [InTurn.followOf, Analysis.followOf, InTurn.collect_snd]
  cases sequenceNullable symbols rest with
  | false => simp [InTurn.mem_collect]
  | true =>
      by_cases heq : n = owner
      · subst heq
        simp [InTurn.mem_collect, followAt_of_symbolAt hat, or_comm]
      · simp [InTurn.mem_collect, TerminalSet.mem_addAll, heq]

theorem InTurn.updateFollow_eq :
    InTurn.updateFollow owner symbols tokens =
      Analysis.updateFollow owner symbols tokens := by
  induction tokens generalizing symbols with
  | nil => rfl
  | cons token rest ih =>
      cases token with
      | terminal id => exact ih
      | nonterminal n =>
          rw [InTurn.updateFollow, Analysis.updateFollow, InTurn.addFollow_followOf, ih]

/-! ## What the flags say -/

theorem absorb_reports {first : TerminalSet} {nullable : Bool} {symbol : Symbol} :
    (absorb first nullable symbol).2 = true ↔
      (absorb first nullable symbol).1.first ≠ symbol.first ∨
        (absorb first nullable symbol).1.nullable ≠ symbol.nullable := by
  have hmarked : (symbol.addFirst first).1.nullable = symbol.nullable := rfl
  cases nullable with
  | false =>
      show (symbol.first.addAll first).2 = true ↔ (symbol.first.addAll first).1 ≠ _ ∨ _
      rw [TerminalSet.addAll_reports]
      exact (or_iff_left fun h => h hmarked).symm
  | true =>
      have hnull : (absorb first true symbol).1.nullable = true := Bool.or_true _
      show ((symbol.first.addAll first).2 || !symbol.nullable) = true ↔
        (symbol.first.addAll first).1 ≠ _ ∨ _
      rw [Bool.or_eq_true, TerminalSet.addAll_reports, hnull, Bool.not_eq_true']
      exact or_congr_right (by cases symbol.nullable <;> decide)

/-- Whether the symbol at a position is marked; without expansions it is nullable
whether it is or not. -/
def markedAt (symbols : SymbolTable) (n : Nat) : Bool :=
  ((symbolAt? symbols n).map Symbol.marked).getD false

/-- An update of the FIRST set at a position: the flag says whether FIRST or
nullability is another there, neither loses anything, and the rest of the table
stays the same. -/
structure ReportsFirst (symbols : SymbolTable) (owner : Nat)
    (updated : SymbolTable × Bool) : Prop where
  reports : updated.2 = true ↔
    firstAt updated.1 owner ≠ firstAt symbols owner ∨
      nullableAt updated.1 owner ≠ nullableAt symbols owner
  grows : ∀ t, t ∈ firstAt symbols owner → t ∈ firstAt updated.1 owner
  stays_nullable : nullableAt symbols owner = true → nullableAt updated.1 owner = true
  stays_marked : markedAt symbols owner = true → markedAt updated.1 owner = true
  others : ∀ n, n ≠ owner → symbolAt? updated.1 n = symbolAt? symbols n
  follow : ∀ n, followAt updated.1 n = followAt symbols n
  outline : outline updated.1 = outline symbols

/-- An update of FOLLOW sets: the flag says whether one of them is another, none
loses anything, and the rest of the table stays the same. -/
structure ReportsFollow (symbols : SymbolTable) (updated : SymbolTable × Bool) :
    Prop where
  reports : updated.2 = true ↔ ∃ n, followAt updated.1 n ≠ followAt symbols n
  grows : ∀ n t, t ∈ followAt symbols n → t ∈ followAt updated.1 n
  first : ∀ n, firstAt updated.1 n = firstAt symbols n
  nullable : ∀ n, nullableAt updated.1 n = nullableAt symbols n
  marked : ∀ n, markedAt updated.1 n = markedAt symbols n
  outline : outline updated.1 = outline symbols

theorem reportsFirst_updateFirst (p : Production) :
    ReportsFirst symbols p.owner (updateFirst mode symbols p) where
  reports := by
    unfold updateFirst firstAt nullableAt
    rw [symbolAt?_changeAt, if_pos rfl, changeAt]
    cases symbolAt? symbols p.owner with
    | none => simp
    | some symbol => exact absorb_reports
  grows t := by
    unfold updateFirst firstAt
    rw [symbolAt?_changeAt, if_pos rfl]
    cases symbolAt? symbols p.owner with
    | none => exact id
    | some symbol => exact fun h => mem_first_absorb.mpr (Or.inl h)
  stays_nullable := by
    unfold updateFirst nullableAt
    rw [symbolAt?_changeAt, if_pos rfl]
    cases symbolAt? symbols p.owner with
    | none => exact id
    | some symbol => exact fun h => nullable_absorb.mpr (Or.inl h)
  stays_marked := by
    unfold updateFirst markedAt
    rw [symbolAt?_changeAt, if_pos rfl]
    cases symbolAt? symbols p.owner with
    | none => exact id
    | some symbol => cases sequenceNullable symbols p.right with
      | false => exact id
      | true => exact fun _ => rfl
  others n hn := by rw [updateFirst, symbolAt?_changeAt, if_neg hn.symm]
  follow _ := followAt_updateFirst
  outline := outline_updateFirst

theorem markedAt_updateFollow (n : Nat) :
    markedAt (updateFollow owner symbols tokens).1 n = markedAt symbols n := by
  induction tokens generalizing symbols with
  | nil => rfl
  | cons token rest ih =>
      cases token with
      | terminal id => exact ih
      | nonterminal m =>
          rw [updateFollow, ih, markedAt, markedAt, map_symbolAt?_changeAt fun _ => rfl]

theorem reportsFollow_updateFollow :
    ReportsFollow symbols (updateFollow owner symbols tokens) where
  reports := by
    constructor
    · intro h
      obtain ⟨n, t, -, hin, hnot⟩ := updateFollow_of_snd_eq_true h
      exact ⟨n, fun heq => hnot (heq ▸ hin)⟩
    · rintro ⟨n, hne⟩
      cases hflag : (updateFollow owner symbols tokens).2 with
      | false => exact absurd (by rw [updateFollow_eq_self_of_snd hflag]) hne
      | true => rfl
  grows _ _ := followAt_updateFollow_of_mem
  first := firstAt_eq_of_facts factsOf_updateFollow
  nullable := nullableAt_eq_of_facts factsOf_updateFollow
  marked := markedAt_updateFollow
  outline := outline_updateFollow

/-- The updates of a production report exactly what they change, whatever the table
says before, and looking at the tokens in turn gives the same. -/
theorem updates_report_changes (symbols : SymbolTable) (p : Production) :
    (∀ mode, ReportsFirst symbols p.owner (updateFirst mode symbols p) ∧
      InTurn.updateFirst mode p.owner symbols p.right = updateFirst mode symbols p) ∧
    ReportsFollow symbols (updateFollow p.owner symbols p.right) ∧
      InTurn.updateFollow p.owner symbols p.right = updateFollow p.owner symbols p.right :=
  ⟨fun _ => ⟨reportsFirst_updateFirst p, InTurn.updateFirst_eq⟩,
    reportsFollow_updateFollow, InTurn.updateFollow_eq⟩

end Analysis

end Descent
