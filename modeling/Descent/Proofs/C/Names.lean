import Mathlib.Data.List.Nodup
import Descent.C.Print
import Descent.Grammar.Load
import Descent.Proofs.Parser.Build

/-!
# The names in a program

All names of a program begin with the prefix, and what stands behind the prefix of
a routine is whatever the grammar calls the symbol. Nothing keeps it from being what
stands behind the prefix of something else. This file finds the symbols for which
that happens (`Grammar.Reserved`): a few fixed names, and those that read like the
name of a user action which the same grammar has.

A numbered name ends in a character that is no digit and then a number, so its two
parts can be told from it (`toList_append_digits_inj`). Two user actions therefore
never have one name.
-/

namespace Descent

/-! ## Numbered names -/

theorem toDigits_inj {i j : Nat} : Nat.toDigits 10 i = Nat.toDigits 10 j ↔ i = j := by
  constructor
  · intro h
    have hnumber := congrArg (Nat.ofDigitChars 10 · 0) h
    simp only [Nat.ofDigitChars_toDigits (by decide : 1 < 10) (by decide : 10 ≤ 10)] at hnumber
    exact hnumber
  · rintro rfl
    rfl

theorem not_mem_toDigits {c : Char} (hc : c.isDigit = false) (n : Nat) :
    c ∉ Nat.toDigits 10 n := by
  intro hmem
  rw [Nat.isDigit_of_mem_toDigits (by decide) (by decide) hmem] at hc
  cases hc

/-- What is in front of a number can be told from it by a last character that is no digit. -/
theorem toList_append_digits_inj {xs ys : List Char} {c : Char} {i j : Nat}
    (hc : c.isDigit = false) :
    xs ++ c :: Nat.toDigits 10 i = ys ++ c :: Nat.toDigits 10 j ↔ xs = ys ∧ i = j := by
  constructor
  · intro h
    have hxs : xs = ys := by
      rcases List.append_eq_append_iff.mp h with ⟨between, hys, htail⟩ | ⟨between, hxs, htail⟩
      · cases between with
        | nil => simpa using hys.symm
        | cons d between =>
            injection htail with _ htail
            exact absurd (by simp [htail]) (not_mem_toDigits hc i)
      · cases between with
        | nil => simpa using hxs
        | cons d between =>
            injection htail with _ htail
            exact absurd (by simp [htail]) (not_mem_toDigits hc j)
    subst hxs
    exact ⟨rfl, toDigits_inj.mp (by simpa using h)⟩
  · rintro ⟨rfl, rfl⟩
    rfl

theorem numbered_inj {a b separator : String} {c : Char} {i j : Nat}
    (hseparator : separator.toList = [c]) (hc : c.isDigit = false) :
    a ++ separator ++ toString i = b ++ separator ++ toString j ↔ a = b ∧ i = j := by
  have hfront : a = b ↔ a.toList = b.toList := String.toList_inj.symm
  rw [← String.toList_inj, hfront]
  simp only [Nat.toString_eq_repr, String.toList_append, Nat.toList_repr, hseparator,
    List.append_assoc, List.singleton_append]
  exact toList_append_digits_inj hc

section Indexed

variable {α : Type} {named : String → Nat → String} {entries : List (String × α)}
  {indices : String × α → List Nat}
  (hinjective : ∀ {a b i j}, named a i = named b j ↔ a = b ∧ i = j)

include hinjective

theorem mem_flatMap_indexed {a : String} {i : Nat} :
    named a i ∈ (entries.flatMap fun entry => (indices entry).map (named entry.1)) ↔
      ∃ entry ∈ entries, entry.1 = a ∧ i ∈ indices entry := by
  simp only [List.mem_flatMap, List.mem_map, hinjective]
  refine exists_congr fun entry => and_congr_right fun _ => ?_
  constructor
  · rintro ⟨j, hj, rfl, rfl⟩
    exact ⟨rfl, hj⟩
  · rintro ⟨rfl, hi⟩
    exact ⟨i, hi, rfl, rfl⟩

/-- Names that are made from a key and an index differ, where the keys differ and the indices
under each key do. -/
theorem nodup_flatMap_indexed (hkeys : (entries.map Prod.fst).Nodup)
    (hindices : ∀ entry, (indices entry).Nodup) :
    (entries.flatMap fun entry => (indices entry).map (named entry.1)).Nodup := by
  rw [List.nodup_flatMap]
  constructor
  · intro entry _
    exact (hindices entry).map fun i j h => (hinjective.mp h).2
  · refine (List.pairwise_map.mp hkeys).imp fun hne => ?_
    intro name hname hname'
    obtain ⟨i, -, rfl⟩ := List.mem_map.mp hname
    obtain ⟨j, -, heq⟩ := List.mem_map.mp hname'
    exact hne (hinjective.mp heq).1.symm

end Indexed

namespace Settings

variable {settings : Settings} {a b : String} {i j : Nat}

theorem prefixed_inj : settings.prefixed a = settings.prefixed b ↔ a = b := by
  rw [prefixed, prefixed, String.append_right_inj]

theorem actionName_eq (settings : Settings) (symbol : String) (i : Nat) :
    settings.actionName symbol i =
      settings.prefixed ("action_" ++ symbol ++ "_" ++ toString i) := by
  have hmiddle : "_action_" = "_" ++ "action_" := by decide
  simp only [actionName, prefixed, hmiddle, String.append_assoc]

theorem actionName_inj : settings.actionName a i = settings.actionName b j ↔ a = b ∧ i = j := by
  rw [actionName_eq, actionName_eq, prefixed_inj,
    numbered_inj (c := '_') (by decide) (by decide), String.append_right_inj]

end Settings

/-! ## The user actions of a grammar -/

/-- An empty expansion behind another one of its symbol, which is ignored. -/
def Symbol.Repeats (data : Symbol) (i : Nat) : Prop :=
  data.expansions[i]? = some [] ∧ ∃ j < i, data.expansions[j]? = some []

/-- Any other expansion has a user action. -/
def Symbol.HasAction (data : Symbol) (i : Nat) : Prop :=
  i < data.expansions.length ∧ ¬ data.Repeats i

theorem Symbol.idxOf?_nil_eq_some_iff {data : Symbol} {i : Nat} :
    data.expansions.idxOf? [] = some i ↔
      data.expansions[i]? = some [] ∧ ¬ data.Repeats i := by
  rw [List.idxOf?_eq_some_iff]
  constructor
  · intro ⟨hi, hnil, hearlier⟩
    refine ⟨List.getElem?_eq_some_iff.mpr ⟨hi, hnil⟩, ?_⟩
    rintro ⟨-, j, hj, heq⟩
    exact hearlier j hj (List.getElem?_eq_some_iff.mp heq).2
  · intro ⟨hat, hfirst⟩
    obtain ⟨hi, hnil⟩ := List.getElem?_eq_some_iff.mp hat
    refine ⟨hi, hnil, fun j hj heq => hfirst ⟨hat, j, hj, ?_⟩⟩
    exact List.getElem?_eq_some_iff.mpr ⟨Nat.lt_trans hj hi, heq⟩

theorem Symbol.hasAction_iff {data : Symbol} {i : Nat} :
    data.HasAction i ↔
      (∃ expansion, data.expansions[i]? = some expansion ∧ expansion ≠ []) ∨
        data.expansions.idxOf? [] = some i := by
  rw [idxOf?_nil_eq_some_iff]
  constructor
  · rintro ⟨hi, hfirst⟩
    have hat := List.getElem?_eq_getElem hi
    by_cases hnil : data.expansions[i] = []
    · exact Or.inr ⟨hnil ▸ hat, hfirst⟩
    · exact Or.inl ⟨_, hat, hnil⟩
  · rintro (⟨expansion, hat, hne⟩ | ⟨hat, hfirst⟩)
    · refine ⟨(List.getElem?_eq_some_iff.mp hat).1, fun hrepeats => hne ?_⟩
      exact Option.some.inj (hat.symm.trans hrepeats.1)
    · exact ⟨(List.getElem?_eq_some_iff.mp hat).1, hfirst⟩

/-- The expansions for which a routine has a user action. -/
def Routine.actionIndices (r : Routine) : List Nat :=
  r.branches.map Branch.expansion ++ r.fallback.toList

section Routine

variable {g : Grammar} {settings : Settings} {symbol : String} {data : Symbol}

theorem mem_actionIndices_routine {i : Nat} :
    i ∈ (g.routine settings symbol data).actionIndices ↔ data.HasAction i := by
  rw [Routine.actionIndices, List.mem_append, Option.mem_toList, Symbol.hasAction_iff]
  exact or_congr_left Grammar.mem_map_expansion_dispatch

theorem nodup_actionIndices_routine :
    (g.routine settings symbol data).actionIndices.Nodup := by
  rw [Routine.actionIndices, List.nodup_append]
  refine ⟨g.nodup_expansion_dispatch symbol data, ?_, ?_⟩
  · show (data.expansions.idxOf? []).toList.Nodup
    cases data.expansions.idxOf? [] <;> simp
  · rintro i hbranch j hfallback rfl
    obtain ⟨expansion, hat, hne⟩ := Grammar.mem_map_expansion_dispatch.mp hbranch
    obtain ⟨hnil, -⟩ := Symbol.idxOf?_nil_eq_some_iff.mp (Option.mem_toList.mp hfallback)
    rw [hat] at hnil
    exact hne (Option.some.inj hnil)

end Routine

namespace C

variable {g : Grammar} {settings : Settings} {policy : ConflictPolicy} {p : Parser}
  {name : String}

theorem map_name_listOfRoutine (settings : Settings) (r : Routine) :
    (Prototype.listOfRoutine settings r).map Prototype.name =
      r.actionIndices.map (settings.actionName r.symbol) := by
  simp only [Prototype.listOfRoutine, Routine.actionIndices, List.map_append, List.map_map]
  rfl

theorem map_name_actions (hbuild : Parser.build g settings policy = .ok p) :
    (Program.ofParser p).actions.map Prototype.name =
      g.symbols.entries.flatMap fun entry =>
        (g.routine settings entry.1 entry.2).actionIndices.map (settings.actionName entry.1) := by
  obtain ⟨-, start, rfl⟩ := Parser.build_eq_ok hbuild
  simp only [Program.ofParser, Grammar.parserFrom, Grammar.routines, List.flatMap_map,
    List.map_flatMap, map_name_listOfRoutine]
  rfl

/-- The user actions of a program are those of the grammar's expansions. -/
theorem mem_actions_iff (hbuild : Parser.build g settings policy = .ok p) :
    name ∈ (Program.ofParser p).actions.map Prototype.name ↔
      ∃ entry ∈ g.symbols.entries, ∃ i, entry.2.HasAction i ∧
        name = settings.actionName entry.1 i := by
  simp only [map_name_actions hbuild, List.mem_flatMap, List.mem_map, mem_actionIndices_routine,
    eq_comm]

/-- No two user actions have one name. -/
theorem nodup_actions (hbuild : Parser.build g settings policy = .ok p) :
    ((Program.ofParser p).actions.map Prototype.name).Nodup := by
  rw [map_name_actions hbuild]
  exact nodup_flatMap_indexed Settings.actionName_inj g.symbols.nodup_keys
    fun entry => nodup_actionIndices_routine

/-! ## Clashes -/

/-- What every program gives a name to beside its routines: two variables, two functions
and a type. -/
def fixedNames : List String :=
  ["peek_next_token", "eat_token", "next_token", "token_buffered", "node_t"]

/-- The names that a program defines itself beside those of its routines. -/
def Program.ownNames (program : Program) : List String :=
  (program.entry.toList.map fun _ => program.settings.prefixed "parse") ++
    fixedNames.map program.settings.prefixed

/-- The names in a program that are not routines' names. -/
def Program.otherNames (program : Program) : List String :=
  program.actions.map Prototype.name ++ program.ownNames

end C

/-- A name of a symbol whose routine has the name of something else: a fixed one, or one
that is made like the names of user actions and stands for one of them. -/
def Grammar.Reserved (g : Grammar) (name : String) : Prop :=
  name ∈ "parse" :: C.fixedNames ∨
    ∃ entry ∈ g.symbols.entries, ∃ i, entry.2.HasAction i ∧
      name = "action_" ++ entry.1 ++ "_" ++ toString i

namespace C

variable {g : Grammar} {settings : Settings} {policy : ConflictPolicy} {p : Parser}

theorem ownNames_eq (hbuild : Parser.build g settings policy = .ok p) {r : Routine}
    (hr : r ∈ p.routines) :
    (Program.ofParser p).ownNames = ("parse" :: fixedNames).map settings.prefixed := by
  obtain ⟨name, hstart⟩ := Option.isSome_iff_exists.mp (Parser.isSome_start hbuild hr)
  have hsettings := Parser.settings_of_build hbuild
  simp [Program.ownNames, Program.ofParser, hstart, hsettings]

theorem name_of_mem_routines (hbuild : Parser.build g settings policy = .ok p) {r : Routine}
    (hr : r ∈ p.routines) : r.name = settings.prefixed r.symbol := by
  obtain ⟨entry, -, rfl⟩ := (Parser.mem_routines_iff hbuild).mp hr
  rfl

/-- A routine has the name of something else in its program exactly if the name of its
symbol is reserved. -/
theorem name_mem_otherNames_iff (hbuild : Parser.build g settings policy = .ok p) {r : Routine}
    (hr : r ∈ p.routines) :
    r.name ∈ (Program.ofParser p).otherNames ↔ g.Reserved r.symbol := by
  have hinjective : Function.Injective settings.prefixed := fun _ _ => Settings.prefixed_inj.mp
  rw [Program.otherNames, ownNames_eq hbuild hr, List.mem_append, mem_actions_iff hbuild,
    name_of_mem_routines hbuild hr, List.mem_map_of_injective hinjective, Grammar.Reserved,
    or_comm]
  simp only [Settings.actionName_eq, Settings.prefixed_inj]

/-- A source with a symbol that is called like the entry point, and another that is called
like the user action of the first. -/
def clashingSource : String :=
  "X = x\n%%\nparse := action_parse_0\naction_parse_0 := X\n%%"

/-- The grammar of `clashingSource`. -/
def clashing : Grammar where
  header := .ofItems [.terminal "X" "x"]
  symbols := Symbol.tableOfRules [⟨"parse", ["action_parse_0"]⟩, ⟨"action_parse_0", ["X"]⟩]

/-- The same grammar with its sets. -/
def clashingAnalyzed : Grammar :=
  { clashing with symbols := (clashing.analysis .firstOnly).symbols }

/-- The parser of `clashingAnalyzed`. -/
def clashingParser : Parser :=
  clashingAnalyzed.parserFrom (.ofHeader clashingAnalyzed.header) (some "parse")

theorem build_clashing : Parser.build clashingAnalyzed (.ofHeader clashingAnalyzed.header)
    .warn = .ok clashingParser := by
  rfl

theorem name_mem_otherNames_iff_clashing :
    Parser.build clashingAnalyzed (.ofHeader clashingAnalyzed.header) .warn =
        .ok clashingParser ∧
      (∀ r ∈ clashingParser.routines, r.name ∈ (Program.ofParser clashingParser).otherNames) ∧
      ∀ r ∈ clashingParser.routines, clashingAnalyzed.Reserved r.symbol := by
  have hclash : ∀ r ∈ clashingParser.routines,
      r.name ∈ (Program.ofParser clashingParser).otherNames := by
    decide
  exact ⟨build_clashing, hclash, fun r hr =>
    (name_mem_otherNames_iff build_clashing hr).mp (hclash r hr)⟩

/-- Routines do have the names of other things: here one that of the entry point and one
that of a user action, and the text has all four. -/
theorem exists_routine_clashes :
    Grammar.load (some .firstOnly) clashingSource = .ok clashingAnalyzed ∧
      Parser.build clashingAnalyzed (.ofHeader clashingAnalyzed.header) .warn =
        .ok clashingParser ∧
      (∃ r ∈ clashingParser.routines,
        r.name = clashingParser.settings.prefixed "parse" ∧ clashingParser.start.isSome = true) ∧
      (∃ r ∈ clashingParser.routines,
        r.name ∈ (Program.ofParser clashingParser).actions.map Prototype.name) ∧
      ∀ line ∈ ["static yy_node_t* yy_parse(void)", "yy_node_t* yy_parse(void)",
        "static yy_node_t* yy_action_parse_0(void);",
        "yy_node_t* yy_action_parse_0(yy_node_t*);"],
        line ∈ (Program.ofParser clashingParser).lines := by
  have hload : Grammar.load (some .firstOnly) clashingSource = .ok clashingAnalyzed := by rfl
  refine ⟨hload, build_clashing, ?_, ?_, ?_⟩
  · decide
  · decide
  · decide

end C

end Descent
