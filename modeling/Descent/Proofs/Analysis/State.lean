import Descent.Analysis.First
import Descent.Analysis.Follow
import Descent.Table.Lemmas
import Descent.Proofs.Analysis.Facts

/-!
# What an update does to the table

The analysis changes the table of symbols at one position at a time, and it
never touches a name or an expansion. So every update is described by three
things: the outline, which stays the same, the facts that the table states
afterwards, and the flag.

The facts of a table are read through `factsOf` and `followAt`, and everything
the code computes from a right side is a statement about these facts
(`mem_sequenceFirst`, `sequenceNullable_iff`, `mem_followOf`). The lemmas on
`updateFirst` and `updateFollow` say which facts an update adds and that its
flag tells whether it added one; nothing after this module unfolds them.
-/

namespace Descent.Analysis

open FirstFacts

variable {symbols : SymbolTable} {mode : Mode}

/-! ## Reading the table -/

/-- Names and expansions, without what the analysis has found. -/
def outline (symbols : SymbolTable) : List (String × List Expansion) :=
  symbols.entries.map fun entry => (entry.1, entry.2.expansions)

/-- What a table says about nullability and FIRST. -/
def factsOf (symbols : SymbolTable) : FirstFacts where
  nullable n := nullableAt symbols n = true
  first n t := t ∈ firstAt symbols n

/-- What a table says about FOLLOW. -/
def followOfTable (symbols : SymbolTable) (n t : Nat) : Prop :=
  t ∈ followAt symbols n

theorem length_outline : (outline symbols).length = symbols.size := by
  rw [outline, List.length_map, Table.size]

theorem exists_symbolAt {n : Nat} (h : n < symbols.size) :
    ∃ symbol, symbolAt? symbols n = some symbol := by
  refine ⟨symbols.entries[n].2, ?_⟩
  rw [symbolAt?, Table.at?, List.getElem?_eq_getElem h, Option.map_some]

theorem symbolAt?_eq_none {n : Nat} (h : symbols.size ≤ n) :
    symbolAt? symbols n = none := by
  rw [symbolAt?, Table.at?, List.getElem?_eq_none h, Option.map_none]

theorem symbolAt?_map {f : Symbol → Symbol} {n : Nat} :
    symbolAt? (symbols.map f) n = (symbolAt? symbols n).map f := by
  rw [symbolAt?, symbolAt?, Table.at?_map, Option.map_map, Option.map_map]
  rfl

theorem mem_values_of_symbolAt {n : Nat} {symbol : Symbol}
    (h : symbolAt? symbols n = some symbol) : symbol ∈ symbols.values := by
  obtain ⟨entry, hat, rfl⟩ := Option.map_eq_some_iff.mp h
  exact List.mem_map.mpr ⟨entry, List.mem_of_getElem? hat, rfl⟩

theorem exists_symbolAt_of_mem_values {symbol : Symbol}
    (h : symbol ∈ symbols.values) :
    ∃ n, symbolAt? symbols n = some symbol := by
  obtain ⟨entry, hentry, rfl⟩ := List.mem_map.mp h
  obtain ⟨n, hn⟩ := List.getElem?_of_mem hentry
  exact ⟨n, Option.map_eq_some_iff.mpr ⟨entry, hn, rfl⟩⟩

/-- Tables with the same outline have the same symbols, up to what has been
found out about them. -/
theorem expansions_of_outline {symbols' : SymbolTable}
    (hout : outline symbols' = outline symbols) {n : Nat} {symbol : Symbol}
    (hat : symbolAt? symbols n = some symbol) :
    ∃ symbol', symbolAt? symbols' n = some symbol' ∧
      symbol'.expansions = symbol.expansions := by
  obtain ⟨entry, hentry, rfl⟩ := Option.map_eq_some_iff.mp hat
  have hline : (outline symbols')[n]? = some (entry.1, entry.2.expansions) := by
    rw [hout, outline, List.getElem?_map]
    exact congrArg _ hentry
  rw [outline, List.getElem?_map] at hline
  obtain ⟨entry', hentry', heq⟩ := Option.map_eq_some_iff.mp hline
  exact ⟨entry'.2, congrArg _ hentry', congrArg Prod.snd heq⟩

theorem firstAt_of_symbolAt {n : Nat} {symbol : Symbol}
    (h : symbolAt? symbols n = some symbol) :
    firstAt symbols n = symbol.first := by
  rw [firstAt, h, Option.map_some, Option.getD_some]

theorem followAt_of_symbolAt {n : Nat} {symbol : Symbol}
    (h : symbolAt? symbols n = some symbol) :
    followAt symbols n = symbol.follow := by
  rw [followAt, h, Option.map_some, Option.getD_some]

theorem mem_sequenceFirst {tokens : List Token} {t : Nat} :
    t ∈ sequenceFirst mode symbols tokens ↔
      (factsOf symbols).Begins mode tokens t := by
  induction tokens with
  | nil => exact iff_of_false TerminalSet.not_mem_empty id
  | cons token rest ih =>
      cases token with
      | terminal id => cases mode <;> simp [sequenceFirst, terminalFirst, Begins]
      | nonterminal n =>
          rw [sequenceFirst, Begins, ← ih]
          show _ ↔ t ∈ firstAt symbols n ∨ nullableAt symbols n = true ∧ _
          split
          · next hnull => rw [TerminalSet.mem_union, and_iff_right hnull]
          · next hnull => exact ⟨Or.inl, fun h => h.resolve_right
              fun h' => hnull h'.1⟩

theorem sequenceNullable_iff {tokens : List Token} :
    sequenceNullable symbols tokens = true ↔
      (factsOf symbols).Vanishes tokens := by
  induction tokens with
  | nil => exact iff_of_true rfl trivial
  | cons token rest ih =>
      cases token with
      | terminal id => simp [sequenceNullable, Vanishes]
      | nonterminal n =>
          rw [Vanishes, ← ih]
          simp [sequenceNullable, factsOf]

theorem mem_followOf {owner t : Nat} {rest : List Token} :
    t ∈ followOf symbols owner rest ↔
      Behind (factsOf symbols) (followOfTable symbols owner) rest t := by
  rw [Behind, ← mem_sequenceFirst, ← sequenceNullable_iff, followOf]
  split
  · next hnull => rw [TerminalSet.mem_union, and_iff_right hnull, followOfTable]
  · next hnull => exact ⟨Or.inl, fun h => h.resolve_right fun h' => hnull h'.1⟩

/-! ## Changing one symbol -/

section Change

variable {n : Nat} {change : Symbol → Symbol × Bool}

theorem symbolAt?_changeAt {m : Nat} :
    symbolAt? (changeAt symbols n change).1 m =
      if n = m then (symbolAt? symbols m).map fun symbol => (change symbol).1
      else symbolAt? symbols m := by
  unfold changeAt symbolAt?
  rw [Table.at?_modifyAt]
  cases symbols.at? m with
  | none => split <;> rfl
  | some entry => by_cases h : n = m <;> simp [h]

theorem outline_changeAt
    (h : ∀ symbol, (change symbol).1.expansions = symbol.expansions) :
    outline (changeAt symbols n change).1 = outline symbols := by
  unfold changeAt outline Table.modifyAt
  refine List.ext_getElem? fun i => ?_
  simp only [List.getElem?_map, List.getElem?_modify]
  cases symbols.entries[i]? with
  | none => simp
  | some entry => by_cases hi : n = i <;> simp [hi, h]

/-- A field that the change leaves alone reads the same at every position. -/
theorem map_symbolAt?_changeAt {β : Type} {read : Symbol → β} {m : Nat}
    (h : ∀ symbol, read (change symbol).1 = read symbol) :
    (symbolAt? (changeAt symbols n change).1 m).map read =
      (symbolAt? symbols m).map read := by
  rw [symbolAt?_changeAt]
  split
  · rw [Option.map_map]
    exact congrArg (fun f => (symbolAt? symbols m).map f) (funext h)
  · rfl

theorem firstAt_changeAt {m : Nat}
    (h : ∀ symbol, (change symbol).1.first = symbol.first) :
    firstAt (changeAt symbols n change).1 m = firstAt symbols m := by
  rw [firstAt, firstAt, map_symbolAt?_changeAt h]

theorem followAt_changeAt {m : Nat}
    (h : ∀ symbol, (change symbol).1.follow = symbol.follow) :
    followAt (changeAt symbols n change).1 m = followAt symbols m := by
  rw [followAt, followAt, map_symbolAt?_changeAt h]

theorem nullableAt_eq {m : Nat} :
    nullableAt symbols m = ((symbolAt? symbols m).map Symbol.nullable).getD false := by
  rw [nullableAt]
  cases symbolAt? symbols m <;> rfl

theorem nullableAt_changeAt {m : Nat}
    (h : ∀ symbol, (change symbol).1.nullable = symbol.nullable) :
    nullableAt (changeAt symbols n change).1 m = nullableAt symbols m := by
  rw [nullableAt_eq, nullableAt_eq, map_symbolAt?_changeAt h]

end Change

theorem nullableAt_eq_of_facts {symbols' : SymbolTable}
    (h : factsOf symbols' = factsOf symbols) (n : Nat) :
    nullableAt symbols' n = nullableAt symbols n :=
  Bool.eq_iff_iff.mpr (iff_of_eq (congrFun (congrArg FirstFacts.nullable h) n))

theorem firstAt_eq_of_facts {symbols' : SymbolTable}
    (h : factsOf symbols' = factsOf symbols) (n : Nat) :
    firstAt symbols' n = firstAt symbols n :=
  TerminalSet.ext fun t =>
    iff_of_eq (congrFun (congrFun (congrArg FirstFacts.first h) n) t)

theorem factsOf_eq {symbols' : SymbolTable}
    (hnull : ∀ n, nullableAt symbols' n = nullableAt symbols n)
    (hfirst : ∀ n, firstAt symbols' n = firstAt symbols n) :
    factsOf symbols' = factsOf symbols := by
  unfold factsOf
  congr 1
  · funext n
    rw [hnull]
  · funext n t
    rw [hfirst]

/-! ## The update of FIRST -/

theorem expansions_absorb {first : TerminalSet} {nullable : Bool}
    (symbol : Symbol) :
    (absorb first nullable symbol).1.expansions = symbol.expansions := by
  cases nullable <;> rfl

theorem follow_absorb {first : TerminalSet} {nullable : Bool}
    (symbol : Symbol) :
    (absorb first nullable symbol).1.follow = symbol.follow := by
  cases nullable <;> rfl

theorem mem_first_absorb {first : TerminalSet} {nullable : Bool}
    {symbol : Symbol} {t : Nat} :
    t ∈ (absorb first nullable symbol).1.first ↔ t ∈ symbol.first ∨ t ∈ first := by
  cases nullable <;> exact TerminalSet.mem_addAll

theorem nullable_absorb {first : TerminalSet} {nullable : Bool}
    {symbol : Symbol} :
    (absorb first nullable symbol).1.nullable = true ↔
      symbol.nullable = true ∨ nullable = true := by
  cases nullable with
  | false => exact ⟨Or.inl, fun h => h.resolve_right Bool.false_ne_true⟩
  | true => exact iff_of_true (Bool.or_true _) (Or.inr rfl)

theorem addAll_snd_iff {s t : TerminalSet} :
    (s.addAll t).2 = true ↔ ∃ id, id ∈ t ∧ ¬ id ∈ s := by
  rw [TerminalSet.addAll_snd, Bool.not_eq_true', ← Bool.not_eq_true,
    TerminalSet.isSubset_iff]
  simp only [Classical.not_forall, exists_prop]

theorem absorb_snd_iff {first : TerminalSet} {nullable : Bool}
    {symbol : Symbol} :
    (absorb first nullable symbol).2 = true ↔
      (∃ t, t ∈ first ∧ ¬ t ∈ symbol.first) ∨
        nullable = true ∧ ¬ symbol.nullable = true := by
  rw [← addAll_snd_iff]
  cases nullable with
  | false => exact ⟨Or.inl, fun h => h.resolve_right fun h' => by cases h'.1⟩
  | true =>
      show (_ || !symbol.nullable) = true ↔ _
      rw [Bool.or_eq_true, Bool.not_eq_true', Bool.not_eq_true,
        and_iff_right rfl]
      rfl

variable {p : Production}

theorem outline_updateFirst :
    outline (updateFirst mode symbols p).1 = outline symbols :=
  outline_changeAt expansions_absorb

theorem followAt_updateFirst {n : Nat} :
    followAt (updateFirst mode symbols p).1 n = followAt symbols n :=
  followAt_changeAt follow_absorb

theorem nullable_updateFirst (hown : p.owner < symbols.size) {n : Nat} :
    (factsOf (updateFirst mode symbols p).1).nullable n ↔
      (factsOf symbols).nullable n ∨
        n = p.owner ∧ (factsOf symbols).Vanishes p.right := by
  obtain ⟨symbol, hat⟩ := exists_symbolAt hown
  show nullableAt _ n = true ↔ nullableAt symbols n = true ∨ _
  rw [nullableAt, nullableAt, updateFirst, symbolAt?_changeAt,
    ← sequenceNullable_iff]
  split
  · next heq =>
      subst heq
      rw [hat, and_iff_right rfl]
      exact nullable_absorb
  · next hne =>
      exact ⟨Or.inl, fun h => h.resolve_right fun h' => hne h'.1.symm⟩

theorem first_updateFirst (hown : p.owner < symbols.size) {n t : Nat} :
    (factsOf (updateFirst mode symbols p).1).first n t ↔
      (factsOf symbols).first n t ∨
        n = p.owner ∧ (factsOf symbols).Begins mode p.right t := by
  obtain ⟨symbol, hat⟩ := exists_symbolAt hown
  show t ∈ firstAt _ n ↔ t ∈ firstAt symbols n ∨ _
  rw [firstAt, firstAt, updateFirst, symbolAt?_changeAt, ← mem_sequenceFirst]
  split
  · next heq =>
      subst heq
      rw [hat, and_iff_right rfl]
      exact mem_first_absorb
  · next hne =>
      exact ⟨Or.inl, fun h => h.resolve_right fun h' => hne h'.1.symm⟩

/-- The flag is up exactly when the owner has learned something. -/
theorem updateFirst_snd_iff (hown : p.owner < symbols.size) :
    (updateFirst mode symbols p).2 = true ↔
      (∃ t, (factsOf symbols).Begins mode p.right t ∧
          ¬ (factsOf symbols).first p.owner t) ∨
        (factsOf symbols).Vanishes p.right ∧
          ¬ (factsOf symbols).nullable p.owner := by
  obtain ⟨symbol, hat⟩ := exists_symbolAt hown
  have hfirst := firstAt_of_symbolAt hat
  have hnull : nullableAt symbols p.owner = symbol.nullable := by
    rw [nullableAt, hat]
    rfl
  simp only [← mem_sequenceFirst, ← sequenceNullable_iff]
  show (updateFirst mode symbols p).2 = true ↔
    (∃ t, _ ∧ ¬ t ∈ firstAt symbols p.owner) ∨
      _ ∧ ¬ nullableAt symbols p.owner = true
  rw [hfirst, hnull, ← absorb_snd_iff, updateFirst, changeAt, hat]
  rfl

/-! ## Seeding -/

theorem outline_seedProduction :
    outline (seedProduction symbols p) = outline symbols := by
  unfold seedProduction
  split
  · next id _ _ =>
      show outline (changeAt symbols p.owner (·.insertFirst id)).1 = _
      exact outline_changeAt fun _ => rfl
  · rfl

theorem map_symbolAt?_seedProduction {β : Type} {read : Symbol → β} {n : Nat}
    (h : ∀ symbol id, read (symbol.insertFirst id).1 = read symbol) :
    (symbolAt? (seedProduction symbols p) n).map read =
      (symbolAt? symbols n).map read := by
  unfold seedProduction
  split
  · next id _ _ =>
      show (symbolAt? (changeAt symbols p.owner (·.insertFirst id)).1 n).map
        read = _
      exact map_symbolAt?_changeAt fun symbol => h symbol id
  · rfl

theorem mem_firstAt_seedProduction (hown : p.owner < symbols.size) {n t : Nat} :
    t ∈ firstAt (seedProduction symbols p) n ↔
      t ∈ firstAt symbols n ∨
        p.owner = n ∧ ∃ rest, p.right = .terminal t :: rest := by
  unfold seedProduction
  split
  · next id rest hright =>
      obtain ⟨symbol, hat⟩ := exists_symbolAt hown
      rw [hright]
      show t ∈ firstAt (changeAt symbols p.owner
        fun symbol => symbol.insertFirst id).1 n ↔ _
      rw [firstAt, firstAt, symbolAt?_changeAt]
      split
      · next heq =>
          subst heq
          rw [hat, and_iff_right rfl]
          show t ∈ (symbol.first.insertNew id).1 ↔ t ∈ symbol.first ∨ _
          rw [TerminalSet.mem_insertNew, or_comm]
          refine or_congr_right ⟨fun h => ⟨rest, by rw [h]⟩, ?_⟩
          rintro ⟨_, h⟩
          injection h with h _
          injection h with h
          exact h.symm
      · next hne => exact ⟨Or.inl, fun h => h.resolve_right fun h' => hne h'.1⟩
  · next hright =>
      refine ⟨Or.inl, fun h => h.resolve_right ?_⟩
      rintro ⟨_, rest, h⟩
      exact hright t rest h

variable {ps : Productions}

theorem outline_seed : outline (seed ps symbols) = outline symbols := by
  unfold seed
  generalize ps.all = all
  induction all generalizing symbols with
  | nil => rfl
  | cons p all ih => rw [List.foldl_cons, ih, outline_seedProduction]

theorem map_symbolAt?_seed {β : Type} {read : Symbol → β} {n : Nat}
    (h : ∀ symbol id, read (symbol.insertFirst id).1 = read symbol) :
    (symbolAt? (seed ps symbols) n).map read =
      (symbolAt? symbols n).map read := by
  unfold seed
  generalize ps.all = all
  induction all generalizing symbols with
  | nil => rfl
  | cons p all ih =>
      rw [List.foldl_cons, ih, map_symbolAt?_seedProduction h]

theorem nullableAt_seed {n : Nat} :
    nullableAt (seed ps symbols) n = nullableAt symbols n := by
  rw [nullableAt_eq, nullableAt_eq, map_symbolAt?_seed fun _ _ => rfl]

theorem followAt_seed {n : Nat} :
    followAt (seed ps symbols) n = followAt symbols n := by
  rw [followAt, followAt, map_symbolAt?_seed fun _ _ => rfl]

theorem size_eq_of_outline {symbols' : SymbolTable}
    (h : outline symbols' = outline symbols) : symbols'.size = symbols.size := by
  rw [← length_outline, h, length_outline]

/-- Seeding adds the leading terminals of the productions to FIRST. -/
theorem mem_firstAt_seed (hown : ∀ p ∈ ps.all, p.owner < symbols.size)
    {n t : Nat} :
    t ∈ firstAt (seed ps symbols) n ↔
      t ∈ firstAt symbols n ∨
        ∃ p ∈ ps.all, p.owner = n ∧ ∃ rest, p.right = .terminal t :: rest := by
  unfold seed
  revert hown
  generalize ps.all = all
  intro hown
  induction all generalizing symbols with
  | nil => simp
  | cons p all ih =>
      have hsize : (seedProduction symbols p).size = symbols.size :=
        size_eq_of_outline outline_seedProduction
      have hall : ∀ q ∈ all, q.owner < (seedProduction symbols p).size := by
        intro q hq
        rw [hsize]
        exact hown q (List.mem_cons_of_mem p hq)
      rw [List.foldl_cons, ih hall,
        mem_firstAt_seedProduction (hown p List.mem_cons_self), or_assoc]
      simp only [List.mem_cons, exists_eq_or_imp]

/-! ## The update of FOLLOW -/

/-- One place of a right side: the symbol there takes in what is behind it. -/
theorem follow_changeAt {n m t : Nat} {set : TerminalSet}
    (hn : n < symbols.size) :
    t ∈ followAt (changeAt symbols n fun symbol => symbol.addFollow set).1 m ↔
      t ∈ followAt symbols m ∨ m = n ∧ t ∈ set := by
  obtain ⟨symbol, hat⟩ := exists_symbolAt hn
  rw [followAt, followAt, symbolAt?_changeAt]
  split
  · next heq =>
      subst heq
      rw [hat, and_iff_right rfl]
      exact TerminalSet.mem_addAll
  · next hne => exact ⟨Or.inl, fun h => h.resolve_right fun h' => hne h'.1.symm⟩

theorem factsOf_addFollow {n : Nat} {set : TerminalSet} :
    factsOf (changeAt symbols n fun symbol => symbol.addFollow set).1 =
      factsOf symbols :=
  factsOf_eq (fun _ => nullableAt_changeAt fun _ => rfl)
    fun _ => firstAt_changeAt fun _ => rfl

theorem outline_addFollow {n : Nat} {set : TerminalSet} :
    outline (changeAt symbols n fun symbol => symbol.addFollow set).1 =
      outline symbols :=
  outline_changeAt fun _ => rfl

theorem follow_changeAt_snd {n : Nat} {set : TerminalSet}
    (hn : n < symbols.size) :
    (changeAt symbols n fun symbol => symbol.addFollow set).2 = true ↔
      ∃ t, t ∈ set ∧ ¬ t ∈ followAt symbols n := by
  obtain ⟨symbol, hat⟩ := exists_symbolAt hn
  have hfollow : followAt symbols n = symbol.follow := by
    rw [followAt, hat]
    rfl
  rw [hfollow, ← addAll_snd_iff, changeAt, hat]
  rfl

theorem changeAt_addFollow_of_snd {n : Nat} {set : TerminalSet}
    (h : (changeAt symbols n fun symbol => symbol.addFollow set).2 = false) :
    (changeAt symbols n fun symbol => symbol.addFollow set).1 = symbols := by
  show symbols.modifyAt n (fun symbol => (symbol.addFollow set).1) = symbols
  refine Table.modifyAt_eq_self fun entry hentry => ?_
  have hat : symbolAt? symbols n = some entry.2 := by rw [symbolAt?, hentry]; rfl
  rw [changeAt, hat, Option.any_some] at h
  rw [Symbol.addFollow, TerminalSet.addAll_eq_self_of_snd h]

variable {owner : Nat} {tokens : List Token}

theorem outline_updateFollow :
    outline (updateFollow owner symbols tokens).1 = outline symbols := by
  induction tokens generalizing symbols with
  | nil => rfl
  | cons token rest ih =>
      cases token with
      | terminal id => exact ih
      | nonterminal n =>
          rw [updateFollow, ih, outline_addFollow]

theorem factsOf_updateFollow :
    factsOf (updateFollow owner symbols tokens).1 = factsOf symbols := by
  induction tokens generalizing symbols with
  | nil => rfl
  | cons token rest ih =>
      cases token with
      | terminal id => exact ih
      | nonterminal n =>
          rw [updateFollow, ih, factsOf_addFollow]

theorem followAt_addFollow_of_mem {n m t : Nat} {set : TerminalSet}
    (h : t ∈ followAt symbols m) :
    t ∈ followAt (changeAt symbols n fun symbol => symbol.addFollow set).1 m := by
  rcases Nat.lt_or_ge n symbols.size with hn | hn
  · exact (follow_changeAt hn).mpr (Or.inl h)
  · rw [followAt, symbolAt?_changeAt]
    split
    · next heq =>
        subst heq
        rw [followAt, symbolAt?_eq_none hn] at h
        exact absurd h TerminalSet.not_mem_empty
    · exact h

theorem followAt_updateFollow_of_mem {n t : Nat} (h : t ∈ followAt symbols n) :
    t ∈ followAt (updateFollow owner symbols tokens).1 n := by
  induction tokens generalizing symbols with
  | nil => exact h
  | cons token rest ih =>
      cases token with
      | terminal id => exact ih h
      | nonterminal m =>
          rw [updateFollow]
          exact ih (followAt_addFollow_of_mem h)

/-- Every symbol that a sequence mentions is in the table. -/
def Mentions (symbols : SymbolTable) (tokens : List Token) : Prop :=
  ∀ n, .nonterminal n ∈ tokens → n < symbols.size

theorem Mentions.tail {token : Token}
    (h : Mentions symbols (token :: tokens)) : Mentions symbols tokens :=
  fun n hn => h n (List.mem_cons_of_mem token hn)

theorem Mentions.of_outline {symbols' : SymbolTable}
    (hout : outline symbols' = outline symbols) (h : Mentions symbols tokens) :
    Mentions symbols' tokens := by
  intro n hn
  rw [size_eq_of_outline hout]
  exact h n hn

/-- An update stays below FOLLOW facts that its right side does not add to. -/
theorem follow_updateFollow_le {f : FirstFacts} {follow : Nat → Nat → Prop}
    (hfacts : factsOf symbols ≤ f) (hmen : Mentions symbols tokens)
    (hfits : FollowFits f follow (follow owner) tokens)
    (hle : ∀ n t, t ∈ followAt symbols n → follow n t) :
    ∀ n t, t ∈ followAt (updateFollow owner symbols tokens).1 n →
      follow n t := by
  induction tokens generalizing symbols with
  | nil => exact hle
  | cons token rest ih =>
      cases token with
      | terminal id => exact ih hfacts hmen.tail hfits hle
      | nonterminal n =>
          rw [updateFollow]
          have hfacts' : factsOf (changeAt symbols n fun symbol =>
              symbol.addFollow (followOf symbols owner rest)).1 ≤ f := by
            rw [factsOf_addFollow]
            exact hfacts
          refine ih hfacts' (hmen.tail.of_outline outline_addFollow) hfits.2 ?_
          intro m t ht
          rcases (follow_changeAt (hmen n List.mem_cons_self)).mp ht with
            hold | ⟨rfl, hnew⟩
          · exact hle m t hold
          · exact hfits.1 t ((mem_followOf.mp hnew).mono hfacts (hle owner))

theorem updateFollow_eq_self_of_snd
    (h : (updateFollow owner symbols tokens).2 = false) :
    (updateFollow owner symbols tokens).1 = symbols := by
  induction tokens generalizing symbols with
  | nil => rfl
  | cons token rest ih =>
      cases token with
      | terminal id => exact ih h
      | nonterminal n =>
          rw [updateFollow] at h ⊢
          simp only [Bool.or_eq_false_iff] at h ⊢
          exact (ih h.2).trans (changeAt_addFollow_of_snd h.1)

/-- An update that leaves the flag down has found every place satisfied. -/
theorem updateFollow_of_snd_eq_false (hmen : Mentions symbols tokens)
    (h : (updateFollow owner symbols tokens).2 = false) :
    FollowFits (factsOf symbols) (followOfTable symbols)
      (followOfTable symbols owner) tokens := by
  induction tokens with
  | nil => trivial
  | cons token rest ih =>
      cases token with
      | terminal id => exact ih hmen.tail h
      | nonterminal n =>
          have hn := hmen n List.mem_cons_self
          rw [updateFollow] at h
          simp only [Bool.or_eq_false_iff] at h
          obtain ⟨hhere, hthere⟩ := h
          have hin : ∀ t, t ∈ followOf symbols owner rest →
              t ∈ followAt symbols n := by
            intro t ht
            refine Decidable.byContradiction fun hnot => ?_
            rw [(follow_changeAt_snd hn).mpr ⟨t, ht, hnot⟩] at hhere
            cases hhere
          rw [changeAt_addFollow_of_snd hhere] at hthere
          exact ⟨fun t ht => hin t (mem_followOf.mpr ht), ih hmen.tail hthere⟩

/-- With the flag up, some FOLLOW set has grown. -/
theorem updateFollow_of_snd_eq_true
    (h : (updateFollow owner symbols tokens).2 = true) :
    ∃ n t, n < symbols.size ∧ t ∈ followAt (updateFollow owner symbols tokens).1 n ∧
      ¬ t ∈ followAt symbols n := by
  induction tokens generalizing symbols with
  | nil => cases h
  | cons token rest ih =>
      cases token with
      | terminal id => exact ih h
      | nonterminal n =>
          rw [updateFollow] at h ⊢
          simp only [Bool.or_eq_true] at h ⊢
          rcases h with hhere | hthere
          · have hn : n < symbols.size := by
              refine Nat.lt_of_not_le fun hn => ?_
              rw [changeAt, symbolAt?_eq_none hn] at hhere
              cases hhere
            obtain ⟨t, ht, hnot⟩ := (follow_changeAt_snd hn).mp hhere
            exact ⟨n, t, hn, followAt_updateFollow_of_mem
              ((follow_changeAt hn).mpr (Or.inr ⟨rfl, ht⟩)), hnot⟩
          · obtain ⟨m, t, hm, ht, hnot⟩ := ih hthere
            rw [size_eq_of_outline outline_addFollow] at hm
            exact ⟨m, t, hm, ht, fun h => hnot (followAt_addFollow_of_mem h)⟩

end Descent.Analysis
