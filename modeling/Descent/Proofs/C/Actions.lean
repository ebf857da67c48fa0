import Mathlib.Data.List.Count
import Mathlib.Data.List.Flatten
import Descent.Proofs.C.Returns

/-!
# One user action for one expansion

A user action is named after a symbol and a number, and the symbol may itself end in
an underscore and digits. The number is read from the right, so the name still tells
both (`Settings.actionName_inj`). What remains is that no expansion is gone through
twice. The declarations go through the places that have a user action
(`Parser.actionPlaces`), the functions through some of them, in the same order
(`Parser.calledPlaces`).

In the text a name ends at the bracket behind it. A symbol that holds a bracket of its
own makes two names look alike up to there, so lines are counted for the other
symbols only; that every place has a line of its own does not depend on it.
-/

namespace Descent

namespace Parser

/-- The expansions with a user action, as symbols and indices in the order of the
declarations. -/
def actionPlaces (p : Parser) : List (String × Nat) :=
  p.routines.flatMap fun r => r.actionIndices.map (Prod.mk r.symbol)

/-- The expansions whose user action is called, in the order of the functions. -/
def calledPlaces (p : Parser) : List (String × Nat) :=
  p.routines.flatMap fun r => r.calledIndices.map (Prod.mk r.symbol)

/-- The name of the user action of an expansion. -/
def actionAt (p : Parser) (place : String × Nat) : String :=
  p.settings.actionName place.1 place.2

variable {p : Parser}

theorem actionAt_injective (p : Parser) : Function.Injective p.actionAt := by
  intro place place' h
  obtain ⟨hsymbol, hindex⟩ := Settings.actionName_inj.mp h
  exact Prod.ext hsymbol hindex

theorem calledPlaces_sublist (p : Parser) : p.calledPlaces.Sublist p.actionPlaces :=
  List.Sublist.flatMap_right _ fun _ _ =>
    ((List.filter_sublist.map Branch.expansion).append_right _).map _

end Parser

namespace C

variable {g : Grammar} {settings : Settings} {policy : ConflictPolicy} {p : Parser}
  {name : String}

/-! ## The program -/

theorem map_name_actions_eq (p : Parser) :
    (Program.ofParser p).actions.map Prototype.name = p.actionPlaces.map p.actionAt := by
  simp only [Program.ofParser, Parser.actionPlaces, List.map_flatMap, map_name_listOfRoutine,
    List.map_map]
  rfl

/-- All calls of user actions in a program. -/
def Program.actionCalls (program : Program) : List ActionCall :=
  program.functions.flatMap Function.actionCalls

theorem map_name_calls_eq (p : Parser) :
    (Program.ofParser p).actionCalls.map ActionCall.name = p.calledPlaces.map p.actionAt := by
  simp only [Program.actionCalls, Program.ofParser, Parser.calledPlaces, List.flatMap_map,
    List.map_flatMap, map_name_actionCalls, List.map_map]
  rfl

theorem nodup_actionPlaces (hbuild : Parser.build g settings policy = .ok p) :
    p.actionPlaces.Nodup := by
  have hnames := nodup_actions hbuild
  rw [map_name_actions_eq] at hnames
  exact hnames.of_map p.actionAt

theorem mem_actionPlaces_iff (hbuild : Parser.build g settings policy = .ok p)
    {symbol : String} {i : Nat} :
    (symbol, i) ∈ p.actionPlaces ↔
      ∃ data, g.symbols.find? symbol = some data ∧ data.HasAction i := by
  rw [Parser.actionPlaces, List.mem_flatMap]
  constructor
  · rintro ⟨r, hr, hplace⟩
    obtain ⟨entry, hentry, rfl⟩ := (Parser.mem_routines_iff hbuild).mp hr
    obtain ⟨j, hj, heq⟩ := List.mem_map.mp hplace
    obtain ⟨rfl, rfl⟩ := Prod.mk.inj heq
    exact ⟨entry.2, Table.find?_eq_some_iff.mpr hentry, mem_actionIndices_routine.mp hj⟩
  · rintro ⟨data, hfind, haction⟩
    exact ⟨_, (Parser.mem_routines_iff hbuild).mpr ⟨_, Table.find?_eq_some_iff.mp hfind, rfl⟩,
      List.mem_map.mpr ⟨i, mem_actionIndices_routine.mpr haction, rfl⟩⟩

/-! ## Lines that begin with a name -/

/-- Whether a line begins like the prototype of the user action of a name. -/
def declaresAction (settings : Settings) (name line : String) : Bool :=
  (nodePointer settings ++ " " ++ name ++ "(").toList.isPrefixOf line.toList

/-- A text that holds a character which the stem does not hold is not what itself begins with
behind the stem. -/
theorem not_prefix_stem_append {xs stem rest : List Char} {c : Char} (hmem : c ∈ xs)
    (hnot : c ∉ stem) (hne : stem ≠ []) : ¬ xs <+: stem ++ (xs ++ rest) := by
  obtain ⟨before, after, rfl, hbefore⟩ := List.eq_append_cons_of_mem hmem
  rintro ⟨tail, htail⟩
  have hcut : before ++ c :: (after ++ tail) = (stem ++ before) ++ c :: (after ++ rest) := by
    simpa using htail
  rcases Text.eq_or_exists_of_cut hbefore hcut with ⟨heq, -⟩ | ⟨between, heq, -⟩
  · exact hne (List.append_left_eq_self.mp heq.symm)
  · have hin : c ∈ stem ++ before := heq ▸ List.mem_append_right _ List.mem_cons_self
    exact (List.mem_append.mp hin).elim hnot hbefore

/-- Names of user actions that stand in front of a bracket are told apart there. -/
theorem prefix_actionName_iff (settings : Settings) (head rest : List Char) {a b : String}
    {i j : Nat} (ha : '(' ∉ a.toList) (hb : '(' ∉ b.toList) :
    head ++ ((settings.actionName a i).toList ++ ['(']) <+:
        head ++ ((settings.actionName b j).toList ++ '(' :: rest) ↔
      a = b ∧ i = j := by
  have hfree : ∀ {symbol : String} {n : Nat}, '(' ∉ symbol.toList →
      '(' ∉ (symbol ++ "_" ++ toString n).toList := by
    intro symbol n hsymbol
    have hdigits := not_mem_toDigits (c := '(') (by decide) n
    simp [Nat.toString_eq_repr, Nat.toList_repr, hsymbol, hdigits]
  have hname : ∀ (symbol : String) (n : Nat), (settings.actionName symbol n).toList =
      (settings.namePrefix ++ "_action_").toList ++ (symbol ++ "_" ++ toString n).toList := by
    intro symbol n
    simp [Settings.actionName]
  rw [hname, hname, List.append_assoc, List.append_assoc, List.prefix_append_right_inj,
    List.prefix_append_right_inj]
  constructor
  · intro h
    have hnames := eq_of_prefix_of_not_mem (hfree ha) (hfree hb) h
    exact (numbered_inj (c := '_') (by decide) (by decide)).mp (String.toList_inj.mp hnames)
  · rintro ⟨rfl, rfl⟩
    exact (List.prefix_append_right_inj _).mpr (List.prefix_append ['('] rest)

theorem declaresAction_routineLine (routine : String) :
    declaresAction settings name (routineLine settings routine) = false := by
  have hunderscore : '_' ∈ (nodePointer settings ++ " ").toList := by
    simp [nodePointer, Settings.nodeType, Settings.prefixed]
  have hline : (routineLine settings routine).toList =
      "static ".toList ++
        ((nodePointer settings ++ " ").toList ++ (routine ++ "(void);").toList) := by
    simp [routineLine]
  rw [declaresAction, Bool.eq_false_iff, ne_eq, List.isPrefixOf_iff_prefix, hline]
  intro hprefix
  refine not_prefix_stem_append hunderscore (by decide) (by decide) (.trans ?_ hprefix)
  simp only [String.toList_append, List.append_assoc]
  exact (List.prefix_append_right_inj _).mpr (List.prefix_append _ _)

theorem declaresAction_line (prototype : Prototype) :
    declaresAction settings prototype.name (prototype.line settings) = true := by
  rw [declaresAction, List.isPrefixOf_iff_prefix]
  simp only [Prototype.line, String.toList_append]
  exact (List.prefix_append _ _).trans (List.prefix_append _ _)

theorem declaresAction_line_iff {place place' : String × Nat} (hplace : '(' ∉ place.1.toList)
    (hplace' : '(' ∉ place'.1.toList) {prototype : Prototype}
    (hname : prototype.name = p.actionAt place') :
    declaresAction p.settings (p.actionAt place) (prototype.line p.settings) = true ↔
      place = place' := by
  rw [declaresAction, List.isPrefixOf_iff_prefix, Prototype.line, hname]
  have hiff := prefix_actionName_iff p.settings (nodePointer p.settings ++ " ").toList
    (parameterText p.settings prototype.parameters ++ ");").toList hplace hplace'
    (i := place.2) (j := place'.2)
  rw [Prod.ext_iff, ← hiff]
  simp [Parser.actionAt]

/-- With a bracket in the name of a symbol, two prototypes can even be the same line. -/
example :
    let settings := { Settings.ofHeader (.ofItems []) with tokenType := "y_0(void" }
    Prototype.line settings ⟨settings.actionName "x" 0, [.token]⟩ =
      Prototype.line settings ⟨settings.actionName "x_0(y" 0, []⟩ := by
  decide

theorem returnsAction_call_iff {place place' : String × Nat} (hplace : '(' ∉ place.1.toList)
    (hplace' : '(' ∉ place'.1.toList) {call : ActionCall}
    (hname : call.name = p.actionAt place') :
    returnsAction (p.actionAt place) call.line = true ↔ place = place' := by
  rw [returnsAction, List.isPrefixOf_iff_prefix, ActionCall.line, hname]
  have hiff := prefix_actionName_iff p.settings "\t\treturn ".toList
    (", ".intercalate (call.arguments.map Argument.text) ++ ");").toList hplace hplace'
    (i := place.2) (j := place'.2)
  rw [Prod.ext_iff, ← hiff]
  simp [Parser.actionAt]

/-- What is named after places and recognized by its name is there as often as the place. -/
theorem countP_eq_count_place {α : Type} {items : List α} {nameOf : α → String}
    {places : List (String × Nat)} {place : String × Nat} {test : α → Bool}
    (hnames : items.map nameOf = places.map p.actionAt)
    (htest : ∀ item ∈ items, ∀ place' ∈ places, nameOf item = p.actionAt place' →
      (test item = true ↔ place = place')) :
    items.countP test = places.count place := by
  have hcongr : ∀ item ∈ items,
      test item = true ↔ (nameOf item == p.actionAt place) = true := by
    intro item hitem
    obtain ⟨place', hplace', hname⟩ := List.mem_map.mp (hnames ▸ List.mem_map_of_mem hitem)
    rw [htest item hitem place' hplace' hname.symm, beq_iff_eq, ← hname,
      p.actionAt_injective.eq_iff, eq_comm]
  calc
    items.countP test = items.countP fun item => nameOf item == p.actionAt place :=
      List.countP_congr hcongr
    _ = (items.map nameOf).count (p.actionAt place) := by rw [List.count, List.countP_map]; rfl
    _ = places.count place := by
      rw [hnames, List.count_map_of_injective places p.actionAt p.actionAt_injective]

/-! ## The text -/

/-- The lines of all functions of a program. -/
def Program.functionLines (program : Program) : List String :=
  program.functions.flatMap (·.lines program.settings)

theorem countP_declarationLines (program : Program) (name : String) :
    (declarationLines program).countP (declaresAction program.settings name) =
      program.actions.countP fun prototype =>
        declaresAction program.settings name (prototype.line program.settings) := by
  have hblank : declaresAction program.settings name "" = false := by
    rw [declaresAction, Bool.eq_false_iff, ne_eq, List.isPrefixOf_iff_prefix]
    simp
  have hroutines : (program.routines.map (routineLine program.settings)).countP
      (declaresAction program.settings name) = 0 := by
    rw [List.countP_eq_zero]
    intro line hline
    obtain ⟨routine, -, rfl⟩ := List.mem_map.mp hline
    rw [declaresAction_routineLine]
    exact Bool.false_ne_true
  rw [declarationLines, List.countP_append, List.countP_append, List.countP_append, hroutines,
    List.countP_singleton, hblank, List.countP_map]
  simp only [Bool.false_eq_true, if_false, Nat.zero_add]
  rfl

theorem filter_functionLines (program : Program) (hflush : Flush program.settings) :
    program.functionLines.filter (returnsAction name) =
      (program.actionCalls.map ActionCall.line).filter (returnsAction name) := by
  simp only [Program.functionLines, Program.actionCalls, List.filter_flatMap, List.map_flatMap,
    filter_returnsAction hflush]

theorem forall₂_actionPlaces (p : Parser) :
    List.Forall₂ (fun place line => declaresAction p.settings (p.actionAt place) line = true)
      p.actionPlaces ((Program.ofParser p).actions.map (·.line p.settings)) := by
  have hnames : List.Forall₂ Eq (p.actionPlaces.map p.actionAt)
      ((Program.ofParser p).actions.map Prototype.name) :=
    List.forall₂_eq_eq_eq ▸ (map_name_actions_eq p).symm
  rw [List.forall₂_map_left_iff, List.forall₂_map_right_iff] at hnames
  rw [List.forall₂_map_right_iff]
  refine hnames.imp fun place prototype hname => ?_
  rw [hname]
  exact declaresAction_line prototype

theorem mem_keys_of_mem_actionPlaces (hbuild : Parser.build g settings policy = .ok p)
    {place : String × Nat} (hplace : place ∈ p.actionPlaces) : place.1 ∈ g.symbols.keys := by
  obtain ⟨data, hfind, -⟩ := (mem_actionPlaces_iff hbuild).mp hplace
  exact Table.isSome_find?_iff.mp (by rw [hfind]; rfl)

section Plain

variable (hplain : ∀ place ∈ p.actionPlaces, '(' ∉ place.1.toList) {place : String × Nat}
  (hplace : place ∈ p.actionPlaces)

include hplain hplace

theorem countP_declaresAction :
    (declarationLines (Program.ofParser p)).countP (declaresAction p.settings (p.actionAt place)) =
      p.actionPlaces.count place := by
  have hlines := countP_declarationLines (Program.ofParser p) (p.actionAt place)
  have hsettings : (Program.ofParser p).settings = p.settings := rfl
  rw [hsettings] at hlines
  rw [hlines]
  refine countP_eq_count_place (map_name_actions_eq p) ?_
  intro prototype _ place' hplace' hname
  exact declaresAction_line_iff (hplain place hplace) (hplain place' hplace') hname

theorem countP_returnsAction (hflush : Flush p.settings) :
    (Program.ofParser p).functionLines.countP (returnsAction (p.actionAt place)) =
      p.calledPlaces.count place := by
  rw [List.countP_eq_length_filter, filter_functionLines _ hflush, ← List.countP_eq_length_filter,
    List.countP_map]
  refine countP_eq_count_place (map_name_calls_eq p) ?_
  intro call _ place' hplace' hname
  have hdeclared := p.calledPlaces_sublist.subset hplace'
  exact returnsAction_call_iff (hplain place hplace) (hplain place' hdeclared) hname

end Plain

/-- Every user action of a program is that of one expansion. -/
structure ActionsApart (g : Grammar) (p : Parser) : Prop where
  /-- The declarations go once through the expansions that have a user action. -/
  nodup_places : p.actionPlaces.Nodup
  mem_places_iff {symbol : String} {i : Nat} : (symbol, i) ∈ p.actionPlaces ↔
    ∃ data, g.symbols.find? symbol = some data ∧ data.HasAction i
  declared : (Program.ofParser p).actions.map Prototype.name = p.actionPlaces.map p.actionAt
  nodup_declared : ((Program.ofParser p).actions.map Prototype.name).Nodup
  /-- Calls are made for some of the places, and for none twice. -/
  called : (Program.ofParser p).actionCalls.map ActionCall.name = p.calledPlaces.map p.actionAt
  called_sublist : p.calledPlaces.Sublist p.actionPlaces
  nodup_called : ((Program.ofParser p).actionCalls.map ActionCall.name).Nodup
  /-- Behind the routines' prototypes stands one line for each place. -/
  declaredLines : ∃ lines, declarationLines (Program.ofParser p) =
      [""] ++ (Program.ofParser p).routines.map (routineLine p.settings) ++ [""] ++ lines ∧
    List.Forall₂ (fun place line => declaresAction p.settings (p.actionAt place) line = true)
      p.actionPlaces lines
  /-- No other line declares the same, where no symbol holds a bracket. -/
  count_declared (hplain : ∀ symbol ∈ g.symbols.keys, '(' ∉ symbol.toList) :
    ∀ place ∈ p.actionPlaces, (declarationLines (Program.ofParser p)).countP
      (declaresAction p.settings (p.actionAt place)) = 1
  /-- And no two lines of the functions call the same. -/
  count_called (hplain : ∀ symbol ∈ g.symbols.keys, '(' ∉ symbol.toList)
      (hflush : Flush p.settings) :
    ∀ place ∈ p.actionPlaces, (Program.ofParser p).functionLines.countP
      (returnsAction (p.actionAt place)) = if place ∈ p.calledPlaces then 1 else 0

theorem actionsApart (hbuild : Parser.build g settings policy = .ok p) : ActionsApart g p := by
  have hnodup := nodup_actionPlaces hbuild
  have hcalled := hnodup.sublist p.calledPlaces_sublist
  have hplaces : (∀ symbol ∈ g.symbols.keys, '(' ∉ symbol.toList) →
      ∀ place ∈ p.actionPlaces, '(' ∉ place.1.toList :=
    fun hplain _ hplace => hplain _ (mem_keys_of_mem_actionPlaces hbuild hplace)
  exact {
    nodup_places := hnodup
    mem_places_iff := mem_actionPlaces_iff hbuild
    declared := map_name_actions_eq p
    nodup_declared := nodup_actions hbuild
    called := map_name_calls_eq p
    called_sublist := p.calledPlaces_sublist
    nodup_called := map_name_calls_eq p ▸ hcalled.map p.actionAt_injective
    declaredLines := ⟨_, rfl, forall₂_actionPlaces p⟩
    count_declared := fun hplain place hplace => by
      rw [countP_declaresAction (hplaces hplain) hplace, List.count_eq_one_of_mem hnodup hplace]
    count_called := fun hplain hflush place hplace => by
      rw [countP_returnsAction (hplaces hplain) hplace hflush, hcalled.count] }

/-- The name of a user action tells its symbol and its expansion, under any settings and for
any symbols. So in a program no two expansions share one, and each is declared once. -/
theorem userActions_apart (hbuild : Parser.build g settings policy = .ok p) :
    (∀ (names : Settings) {a b : String} {i j : Nat},
      names.actionName a i = names.actionName b j → a = b ∧ i = j) ∧
    ActionsApart g p :=
  ⟨fun _ _ _ _ _ => Settings.actionName_inj.mp, actionsApart hbuild⟩

/-- A grammar with symbols that are called like expansions of each other. -/
def numbered : Grammar where
  header := .ofItems [.terminal "X" "x"]
  symbols := Symbol.tableOfRules
    [⟨"s", ["s_1", "X"]⟩, ⟨"s", []⟩, ⟨"s_1", ["X", "s_1_0"]⟩, ⟨"s_1_0", []⟩, ⟨"s_1_0", ["s"]⟩]

/-- The same grammar with its sets. -/
def numberedAnalyzed : Grammar :=
  { numbered with symbols := (numbered.analysis .follow).symbols }

/-- The parser of `numberedAnalyzed`. -/
def numberedParser : Parser :=
  numberedAnalyzed.parserFrom (.ofHeader numberedAnalyzed.header) (some "s")

theorem userActions_apart_numbered :
    Parser.build numberedAnalyzed (.ofHeader numberedAnalyzed.header) .warn =
        .ok numberedParser ∧
      numberedParser.actionPlaces.map numberedParser.actionAt =
        ["yy_action_s_0", "yy_action_s_1", "yy_action_s_1_0", "yy_action_s_1_0_1",
          "yy_action_s_1_0_0"] ∧
      ActionsApart numberedAnalyzed numberedParser ∧
      ∀ place ∈ numberedParser.actionPlaces,
        (declarationLines (Program.ofParser numberedParser)).countP
            (declaresAction numberedParser.settings (numberedParser.actionAt place)) = 1 ∧
          (Program.ofParser numberedParser).functionLines.countP
            (returnsAction (numberedParser.actionAt place)) = 1 := by
  have hbuild : Parser.build numberedAnalyzed (.ofHeader numberedAnalyzed.header) .warn =
      .ok numberedParser := by rfl
  have hplain : ∀ symbol ∈ numberedAnalyzed.symbols.keys, '(' ∉ symbol.toList := by decide
  have hflush : Flush numberedParser.settings := ⟨by decide, by decide⟩
  have hcalled : ∀ place ∈ numberedParser.actionPlaces,
      place ∈ numberedParser.calledPlaces := by
    decide
  have hapart := (userActions_apart hbuild).2
  refine ⟨hbuild, by decide, hapart, fun place hplace => ⟨?_, ?_⟩⟩
  · exact hapart.count_declared hplain place hplace
  · rw [hapart.count_called hplain hflush place hplace, if_pos (hcalled place hplace)]

end C

end Descent
