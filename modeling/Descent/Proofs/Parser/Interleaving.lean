import Descent.Proofs.Analysis.Rearranged
import Descent.Proofs.Parser.Build
import Descent.Proofs.Parser.Conflicts

/-!
# Rules in another order

The lines of the rules section may be put in another order, as long as those of
one symbol stay in theirs. This declares the symbols in another order and changes
nothing else (`Interleaved.rearranged`), so it changes nothing in what the
analysis says of a symbol either. And what a parser has for a symbol, its routine
and its conflicts, is made from the symbol and from what the names in its
expansions stand for, not from any position (`Rearranged.build`).
-/

namespace Descent

/-! ## Reading the lines -/

/-- The same lines, of which those of one symbol are in the same order. -/
structure Interleaved (lines lines' : List (List Char)) : Prop where
  perm : lines.Perm lines'
  order (name : String) :
    lines'.filter (fun line => (Rule.ofLine line).name == name) =
      lines.filter fun line => (Rule.ofLine line).name == name

namespace Symbol

/-- A symbol is made from the rules that have its name. -/
theorem find?_foldl_addTo {symbols : SymbolTable} {rules : List Rule}
    {name : String} :
    (rules.foldl Rule.addTo symbols).find? name =
      (rules.filter (·.name == name)).foldl
        (fun symbol rule => some ((symbol.getD {}).addExpansion rule.expansion))
        (symbols.find? name) := by
  induction rules generalizing symbols with
  | nil => rfl
  | cons rule rules ih =>
      rw [List.foldl_cons, ih, Rule.addTo, Table.find?_upsert]
      by_cases h : name = rule.name
      · rw [List.filter_cons_of_pos (by simp [h]), if_pos h, List.foldl_cons, h]
      · rw [List.filter_cons_of_neg (by simp [Ne.symm h]), if_neg h]

theorem find?_parseTable {text text' : String}
    (h : Interleaved (File.contentLines text.toList)
      (File.contentLines text'.toList)) (name : String) :
    (parseTable text').find? name = (parseTable text).find? name := by
  simp only [parseTable, tableOfRules, find?_foldl_addTo, Rule.listOfText,
    List.filter_map]
  exact congrArg (fun lines => List.foldl _ _ (List.map Rule.ofLine lines))
    (h.order name)

end Symbol

theorem Interleaved.rearranged {sections sections' : Sections}
    (hheader : sections'.header = sections.header)
    (h : Interleaved (File.contentLines sections.rules.toList)
      (File.contentLines sections'.rules.toList)) :
    Grammar.Rearranged (.ofSections sections) (.ofSections sections') where
  header := congrArg Header.parse hheader
  symbols := Symbol.find?_parseTable h

namespace Grammar

/-! ## Routines and conflicts -/

variable {g g' : Grammar} {settings : Settings} {policy : ConflictPolicy}

theorem Rearranged.predicting (h : Rearranged g g') (leading : String) :
    g'.predicting leading = g.predicting leading := by
  obtain ⟨ρ, hρ⟩ := h.exists_renames
  unfold Grammar.predicting
  rw [h.resolve hρ, h.header]
  cases g.resolve leading with
  | none => rfl
  | some token =>
      cases token with
      | terminal id => rfl
      | nonterminal n => simp only [Option.map_some, Token.rename, hρ n]

theorem Rearranged.steps (h : Rearranged g g') (index slot : Nat)
    (expansion : Expansion) :
    g'.steps index slot expansion = g.steps index slot expansion := by
  induction expansion generalizing index slot with
  | nil => rfl
  | cons name rest ih => simp only [Grammar.steps, h.header, h.symbols, ih]

theorem Rearranged.branches (h : Rearranged g g') (name : String)
    (claims : Prediction.Claims) (es : List (Expansion × Nat)) :
    g'.branches name claims es = g.branches name claims es := by
  induction es generalizing claims with
  | nil => rfl
  | cons e es ih =>
      obtain ⟨expansion, index⟩ := e
      cases expansion with
      | nil => exact ih claims
      | cons leading names =>
          simp only [Grammar.branches, h.predicting, h.steps, ih]

theorem Rearranged.dispatch (h : Rearranged g g') (name : String) (s : Symbol) :
    g'.dispatch name s = g.dispatch name s := h.branches name [] _

theorem Rearranged.routine (h : Rearranged g g') (settings : Settings)
    (name : String) (s : Symbol) :
    g'.routine settings name s = g.routine settings name s := by
  rw [Grammar.routine, Grammar.routine, h.dispatch]

theorem filter_dispatch {entries : List (String × Symbol)} {name : String}
    (hnodup : (entries.map Prod.fst).Nodup) :
    (entries.flatMap fun entry => (g.dispatch entry.1 entry.2).2).filter
        (·.symbol == name) =
      ((entries.lookup name).map fun s => (g.dispatch name s).2).getD [] := by
  induction entries with
  | nil => rfl
  | cons entry entries ih =>
      obtain ⟨hnew, hrest⟩ := List.nodup_cons.mp hnodup
      rw [List.flatMap_cons, List.filter_append, ih hrest, Table.lookup_cons]
      split
      · next heq =>
          subst heq
          -- Names are distinct: no later entry has conflicts under this one.
          have hnone : entries.lookup entry.1 = none := by
            refine Option.eq_none_iff_forall_ne_some.mpr fun s hs => hnew ?_
            exact List.mem_map.mpr
              ⟨_, (Table.lookup_eq_some_iff hrest).mp hs, rfl⟩
          rw [hnone, List.filter_eq_self.mpr fun c hc => ?_]
          · simp
          · simp [symbol_of_mem_dispatch hc]
      · next hne =>
          rw [List.filter_eq_nil_iff.mpr fun c hc => ?_, List.nil_append]
          simp [symbol_of_mem_dispatch hc, Ne.symm hne]

/-- The conflicts of a symbol among all. -/
theorem filter_conflicts (g : Grammar) (name : String) :
    g.conflicts.filter (·.symbol == name) =
      ((g.symbols.find? name).map fun s => (g.dispatch name s).2).getD [] :=
  filter_dispatch g.symbols.nodup

theorem Rearranged.conflicts_eq_nil_iff (h : Rearranged g g') :
    g'.conflicts = [] ↔ g.conflicts = [] := by
  simp only [conflicts, List.flatMap_eq_nil_iff, h.dispatch, h.mem_entries_iff]

/-! ## Parsers -/

end Grammar

namespace Parser

/-- Parsers with the same routine and the same conflicts for every symbol. -/
structure Alike (p p' : Parser) : Prop where
  settings : p'.settings = p.settings
  terminals : p'.terminals = p.terminals
  start : p'.start = p.start
  routine? (name : String) : p'.routine? name = p.routine? name
  conflicts (name : String) :
    p'.conflicts.filter (·.symbol == name) = p.conflicts.filter (·.symbol == name)

end Parser

namespace Grammar

variable {g g' : Grammar} {settings : Settings} {policy : ConflictPolicy}
  {p : Parser}

theorem Rearranged.startSymbol (h : Rearranged g g')
    (hstart : settings.start.isSome = true) :
    g'.startSymbol settings = g.startSymbol settings := by
  obtain ⟨name, hname⟩ := Option.isSome_iff_exists.mp hstart
  have hsame : g'.symbols.contains name = g.symbols.contains name := by
    rw [Bool.eq_iff_iff, Table.contains_iff, Table.contains_iff, h.mem_keys_iff]
  simp only [Grammar.startSymbol, hname, hsame]

theorem Rearranged.undefined?_eq_none_iff (h : Rearranged g g') :
    g'.undefined? g'.mentionedNames = none ↔
      g.undefined? g.mentionedNames = none := by
  simp only [Grammar.undefined?_eq_none_iff, mentionedNames, List.mem_flatMap,
    h.mem_values_iff, h.undefined_iff]

/-- With a start symbol that is asked for, the order of declaration makes no
difference to a parser. -/
theorem Rearranged.build (h : Rearranged g g')
    (hstart : settings.start.isSome = true)
    (hp : Parser.build g settings policy = .ok p) :
    ∃ p', Parser.build g' settings policy = .ok p' ∧ p.Alike p' := by
  obtain ⟨start, hok, hnames, rfl, hconflicts⟩ := Parser.build_eq_ok_iff.mp hp
  have hp' : Parser.build g' settings policy =
      .ok (g'.parserFrom settings start) :=
    Parser.build_eq_ok_iff.mpr
      ⟨start, (h.startSymbol hstart).trans hok, h.undefined?_eq_none_iff.mpr hnames,
        rfl, fun hdeny => h.conflicts_eq_nil_iff.mpr (hconflicts hdeny)⟩
  refine ⟨_, hp', ?_⟩
  constructor
  case settings => rfl
  case terminals => simp only [parserFrom, h.header]
  case start => rfl
  case routine? =>
    intro name
    rw [Parser.routine?_of_build hp, Parser.routine?_of_build hp', h.symbols]
    exact congrArg (Option.map · _) (funext (h.routine settings name))
  case conflicts =>
    intro name
    simp only [parserFrom, filter_conflicts, h.symbols, h.dispatch]

/-! ## From the lines to the parsers -/

/-- Whatever is done with two grammars, it works for both or for neither, and
for every symbol it leads to the same. -/
structure SameParsers (g g' : Grammar) : Prop where
  analyzes (mode : Mode) :
    (∃ a, g.analyze mode = .ok a) ↔ ∃ a', g'.analyze mode = .ok a'
  symbols {mode : Mode} {a a' : Grammar} (ha : g.analyze mode = .ok a)
    (ha' : g'.analyze mode = .ok a') (name : String) :
    a'.symbols.find? name = a.symbols.find? name
  builds {mode : Mode} {a a' : Grammar} {settings : Settings}
    (ha : g.analyze mode = .ok a) (ha' : g'.analyze mode = .ok a')
    (hstart : settings.start.isSome = true) (policy : ConflictPolicy) :
    (∃ p, Parser.build a settings policy = .ok p) ↔
      ∃ p', Parser.build a' settings policy = .ok p'
  parsers {mode : Mode} {a a' : Grammar} {settings : Settings}
    {policy : ConflictPolicy} {p p' : Parser} (ha : g.analyze mode = .ok a)
    (ha' : g'.analyze mode = .ok a') (hstart : settings.start.isSome = true)
    (hp : Parser.build a settings policy = .ok p)
    (hp' : Parser.build a' settings policy = .ok p') : p.Alike p'

theorem Rearranged.of_analyze {mode : Mode} {a a' : Grammar}
    (h : Rearranged g g') (hexp : g.Expanded) (ha : g.analyze mode = .ok a)
    (ha' : g'.analyze mode = .ok a') : Rearranged a a' := by
  obtain ⟨b, hb, hab⟩ := h.analyze hexp ha
  obtain rfl : b = a' := Except.ok.inj (hb.symm.trans ha')
  exact hab

theorem Rearranged.sameParsers (h : Rearranged g g') (hexp : g.Expanded)
    (hexp' : g'.Expanded) : SameParsers g g' where
  analyzes mode := by
    constructor
    · rintro ⟨a, ha⟩
      exact (h.analyze hexp ha).imp fun _ h => h.1
    · rintro ⟨a', ha'⟩
      exact (h.symm.analyze hexp' ha').imp fun _ h => h.1
  symbols ha ha' := (h.of_analyze hexp ha ha').symbols
  builds ha ha' hstart policy := by
    have hab := h.of_analyze hexp ha ha'
    constructor
    · rintro ⟨p, hp⟩
      exact (hab.build hstart hp).imp fun _ h => h.1
    · rintro ⟨p', hp'⟩
      exact (hab.symm.build hstart hp').imp fun _ h => h.1
  parsers ha ha' hstart hp hp' := by
    obtain ⟨q, hq, hpq⟩ := (h.of_analyze hexp ha ha').build hstart hp
    obtain rfl : q = _ := Except.ok.inj (hq.symm.trans hp')
    exact hpq

theorem parse_of_split {source : String} {sections : Sections}
    (h : Sections.split source = .ok sections) :
    Grammar.parse source = .ok (.ofSections sections) := by
  rw [Grammar.parse, h]
  rfl

/-- Rules sections of the same lines, in which those of one symbol are in the
same order, lead to the same parsers. -/
theorem sameParsers_of_interleaved {source source' : String}
    {sections sections' : Sections}
    (hsplit : Sections.split source = .ok sections)
    (hsplit' : Sections.split source' = .ok sections')
    (hheader : sections'.header = sections.header)
    (hrules : Interleaved (File.contentLines sections.rules.toList)
      (File.contentLines sections'.rules.toList)) :
    ∃ g g', Grammar.parse source = .ok g ∧ Grammar.parse source' = .ok g' ∧
      SameParsers g g' := by
  have hparse := parse_of_split hsplit
  have hparse' := parse_of_split hsplit'
  exact ⟨_, _, hparse, hparse', (hrules.rearranged hheader).sameParsers
    (expanded_of_parse hparse) (expanded_of_parse hparse')⟩

/-- The rules of two symbols, of which `top` has a conflict. -/
def mixedSections : Sections where
  header := "A = a\nB = b\n"
  rules := "\ntop := one A\none := B\ntop := B\none :=\n"
  userCode := ""

/-- The same lines in another order. -/
def movedSections : Sections where
  header := "A = a\nB = b\n"
  rules := "\none := B # moved up\n\ntop := one A\n one :=\ntop := B\n"
  userCode := ""

theorem interleaved_mixed :
    Interleaved (File.contentLines mixedSections.rules.toList)
      (File.contentLines movedSections.rules.toList) where
  perm := by decide +kernel
  order name := by
    have hnames : ∀ line ∈ File.contentLines mixedSections.rules.toList ++
        File.contentLines movedSections.rules.toList,
        (Rule.ofLine line).name = "top" ∨ (Rule.ofLine line).name = "one" := by
      decide +kernel
    by_cases htop : name = "top"
    · subst htop
      decide +kernel
    by_cases hone : name = "one"
    · subst hone
      decide +kernel
    have hother : ∀ line ∈ File.contentLines mixedSections.rules.toList ++
        File.contentLines movedSections.rules.toList,
        ¬ ((Rule.ofLine line).name == name) = true := by
      intro line hline heq
      rw [beq_iff_eq] at heq
      rcases hnames line hline with h | h
      · exact htop (heq.symm.trans h)
      · exact hone (heq.symm.trans h)
    rw [List.filter_eq_nil_iff.mpr fun line h =>
        hother line (List.mem_append_right _ h),
      List.filter_eq_nil_iff.mpr fun line h =>
        hother line (List.mem_append_left _ h)]

theorem sameParsers_of_interleaved_mixed :
    Sections.split (mixedSections.header ++ "%%" ++ mixedSections.rules ++ "%%") =
        .ok mixedSections ∧
      Sections.split (movedSections.header ++ "%%" ++ movedSections.rules ++ "%%") =
        .ok movedSections ∧
      movedSections.header = mixedSections.header ∧
      Interleaved (File.contentLines mixedSections.rules.toList)
        (File.contentLines movedSections.rules.toList) ∧
      ∃ g g',
        Grammar.parse (mixedSections.header ++ "%%" ++ mixedSections.rules ++ "%%") =
          .ok g ∧
        Grammar.parse (movedSections.header ++ "%%" ++ movedSections.rules ++ "%%") =
          .ok g' ∧ SameParsers g g' :=
  ⟨rfl, rfl, rfl, interleaved_mixed,
    sameParsers_of_interleaved rfl rfl rfl interleaved_mixed⟩

end Grammar

end Descent
