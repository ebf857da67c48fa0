import Descent.Proofs.Analysis.Validation
import Descent.Proofs.Parser.Conflicts

/-!
# Names looked up in turn

The check that every name of a grammar stands for something can be spread over the
building of its parser. Every name is then looked up where its meaning is wanted,
the leading name of an expansion once for the predictions and once more for the
steps, and the first name without a meaning ends it all. `InTurn.build` does that.

It comes to the same (`InTurn.build_eq`). Each part of it gives what the part
without look-ups gives, behind a guard on the names that it has come across
(`guarded`), and two guards in a row are one guard on both lists of names
(`guarded_bind`). So the name that is reported is the first of all names in the
order of the file, and that is the name for which the analysis refuses the grammar,
where it does not refuse it for the name of a symbol.
-/

namespace Descent.Grammar

variable {g : Grammar} {α β : Type} {a : α} {name : String} {names names' : List String}

/-! ## Guards -/

/-- A result, unless one of some names stands for nothing. -/
def guarded (g : Grammar) (names : List String) (a : α) : Except GrammarError α :=
  match g.undefined? names with
  | some name => .error (.undefined name)
  | none => .ok a

theorem undefined?_append :
    g.undefined? (names ++ names') = (g.undefined? names).or (g.undefined? names') :=
  List.find?_append

theorem guarded_nil : g.guarded [] a = .ok a := rfl

theorem guarded_cons_of_none (h : g.resolve name = none) :
    g.guarded (name :: names) a = .error (.undefined name) := by
  simp [guarded, undefined?, h]

theorem guarded_cons_of_some {token : Token} (h : g.resolve name = some token) :
    g.guarded (name :: names) a = g.guarded names a := by
  simp [guarded, undefined?, h]

theorem guarded_bind {f : α → β} :
    (g.guarded names a >>= fun a => g.guarded names' (f a)) =
      g.guarded (names ++ names') (f a) := by
  simp only [guarded, undefined?_append]
  cases g.undefined? names <;> rfl

theorem guarded_map {f : α → β} :
    (g.guarded names a >>= fun a => pure (f a)) = g.guarded names (f a) := by
  have hpure : (fun a => pure (f a)) = fun a => g.guarded [] (f a) := rfl
  rw [hpure, guarded_bind, List.append_nil]

/-- A name that has passed a guard passes it again. -/
theorem guarded_cons_cons :
    g.guarded (name :: name :: names) a = g.guarded (name :: names) a := by
  cases h : g.resolve name with
  | none => rw [guarded_cons_of_none h, guarded_cons_of_none h]
  | some token => rw [guarded_cons_of_some h]

/-! ## Building with look-ups -/

namespace InTurn

open Analysis Prediction

/-- The terminals that predict an expansion, by what its first name stands for. -/
def predicting (g : Grammar) (leading : String) : Except GrammarError (List Terminal) :=
  match g.resolve leading with
  | some (.terminal id) => .ok (g.header.terminalsOf (.singleton id))
  | some (.nonterminal n) => .ok (g.header.terminalsOf (firstAt g.symbols n))
  | none => .error (.undefined leading)

/-- The steps of an expansion, by what its names stand for one after the other. -/
def steps (g : Grammar) (index slot : Nat) : Expansion → Except GrammarError (List Step)
  | [] => .ok []
  | name :: rest =>
      match g.resolve name with
      | some (.terminal id) =>
          match g.header.terminal? id with
          | some terminal => do
              let later ← steps g (index + 1) slot rest
              return .consume terminal index :: later
          | none => .error (.undefined name)
      | some (.nonterminal n) => do
          let later ← steps g index (slot + 1) rest
          return .call name slot (nullableAt g.symbols n) :: later
      | none => .error (.undefined name)

/-- The branches of a symbol and its conflicts, expansion by expansion. -/
def branches (g : Grammar) (symbol : String) :
    Claims → List (Expansion × Nat) → Except GrammarError (List Branch × List Conflict)
  | _, [] => .ok ([], [])
  | claims, ([], _) :: rest => branches g symbol claims rest
  | claims, (leading :: names, index) :: rest => do
      let settled := settle index claims (← predicting g leading)
      let taken ← steps g 0 0 (leading :: names)
      let later ← branches g symbol settled.claims rest
      return (⟨index, settled.predictions, taken⟩ :: later.1,
        settled.conflicts symbol index ++ later.2)

/-- The routines of some symbols and their conflicts, symbol by symbol. -/
def routines (g : Grammar) (settings : Settings) :
    List (String × Symbol) → Except GrammarError (List Routine × List Conflict)
  | [] => .ok ([], [])
  | (name, symbol) :: rest => do
      let made ← branches g name [] symbol.expansions.zipIdx
      let later ← routines g settings rest
      return ({ g.routine settings name symbol with branches := made.1 } :: later.1,
        made.2 ++ later.2)

/-- The parser of a grammar. -/
def build (g : Grammar) (settings : Settings) (policy : ConflictPolicy) :
    Except GrammarError Parser := do
  let start ← g.startSymbol settings
  let made ← routines g settings g.symbols.entries
  { g.parserFrom settings start with
    routines := made.1, conflicts := made.2 }.underPolicy policy

/-! ## The same parser -/

theorem predicting_eq (g : Grammar) (leading : String) :
    predicting g leading = g.guarded [leading] (g.predicting leading) := by
  rw [Grammar.predicting_eq g leading []]
  simp only [predicting, predictingSet]
  cases h : g.resolve leading with
  | none => rw [guarded_cons_of_none h]
  | some token => cases token <;> rw [guarded_cons_of_some h, guarded_nil]

theorem steps_eq (g : Grammar) (index slot : Nat) (expansion : Expansion) :
    steps g index slot expansion = g.guarded expansion (g.steps index slot expansion) := by
  induction expansion generalizing index slot with
  | nil => rfl
  | cons name rest ih =>
      unfold steps
      cases h : g.resolve name with
      | none => rw [guarded_cons_of_none h]
      | some token =>
          rw [guarded_cons_of_some h]
          cases token with
          | terminal id =>
              obtain ⟨value, hat, hfind⟩ := terminal?_of_resolve h
              simp only [hat, hfind, ih, Grammar.steps, guarded_map]
          | nonterminal n =>
              obtain ⟨hnone, hposition⟩ := findTerminal?_of_nonterminal h
              obtain ⟨symbol, hfind, hat⟩ := find?_of_position? hposition
              have hnullable : nullableAt g.symbols n = symbol.nullable := by
                rw [nullableAt, hat, Option.any_some]
              simp only [ih, Grammar.steps, hnone, hfind, hnullable, guarded_map]

theorem branches_eq (g : Grammar) (symbol : String) (claims : Claims)
    (es : List (Expansion × Nat)) :
    branches g symbol claims es =
      g.guarded (es.flatMap Prod.fst) (g.branches symbol claims es) := by
  induction es generalizing claims with
  | nil => rfl
  | cons e es ih =>
      obtain ⟨expansion, index⟩ := e
      cases expansion with
      | nil => exact ih claims
      | cons leading names =>
          simp only [branches, predicting_eq, steps_eq, ih, guarded_map, guarded_bind]
          -- The leading name is looked up twice.
          exact guarded_cons_cons

theorem routines_eq (g : Grammar) (settings : Settings) (entries : List (String × Symbol)) :
    routines g settings entries =
      g.guarded (entries.flatMap fun entry => entry.2.expansions.flatten)
        (entries.map fun entry => g.routine settings entry.1 entry.2,
          entries.flatMap fun entry => (g.dispatch entry.1 entry.2).2) := by
  induction entries with
  | nil => rfl
  | cons entry entries ih =>
      have hnames : entry.2.expansions.zipIdx.flatMap Prod.fst =
          entry.2.expansions.flatten := by
        rw [List.flatMap_def, List.zipIdx_map_fst]
      simp only [routines, branches_eq, hnames, ih, guarded_map, guarded_bind]
      rfl

/-- It makes no difference when the names are looked up. -/
theorem build_eq (g : Grammar) (settings : Settings) (policy : ConflictPolicy) :
    build g settings policy = Parser.build g settings policy := by
  have hnames : (g.symbols.entries.flatMap fun entry => entry.2.expansions.flatten) =
      g.mentionedNames := by
    rw [mentionedNames, Table.values, List.flatMap_map]
  unfold build Parser.build
  cases g.startSymbol settings with
  | error e => rfl
  | ok start =>
      rw [routines_eq, hnames, guarded]
      cases g.undefined? g.mentionedNames <;> rfl

end InTurn

/-! ## Building and analyzing -/

variable {settings : Settings} {policy : ConflictPolicy} {mode : Mode}

/-- Where no symbol is named like a terminal, the fault of a grammar is the first name
that stands for nothing. -/
theorem fault?_eq_map_undefined
    (hapart : ∀ name ∈ g.symbols.keys, name ∉ g.header.terminals.keys) :
    g.fault? = (g.undefined? g.mentionedNames).map .undefined := by
  have hfault : ∀ entry ∈ g.symbols.entries, g.symbolFault? entry.1 entry.2 =
      (g.undefined? entry.2.expansions.flatten).map .undefined := by
    intro entry hentry
    have hname := hapart entry.1 (List.mem_map_of_mem hentry)
    rw [symbolFault?, if_neg (mt isTerminal_iff.mp hname)]
  have hmentioned : (g.undefined? g.mentionedNames).map GrammarError.undefined =
      g.symbols.entries.findSome? fun entry =>
        (g.undefined? entry.2.expansions.flatten).map .undefined := by
    rw [undefined?, mentionedNames, Table.values, List.flatMap_map, List.find?_flatMap,
      List.map_findSome?]
    rfl
  rw [hmentioned, fault?, ← List.head?_filterMap, List.filterMap_congr hfault,
    List.head?_filterMap]

theorem undefined?_of_fault? (h : g.fault? = none) : g.undefined? g.mentionedNames = none := by
  have hapart : ∀ name ∈ g.symbols.keys, name ∉ g.header.terminals.keys := by
    intro name hname hterminal
    obtain ⟨entry, hentry, rfl⟩ := List.mem_map.mp hname
    exact fault?_eq_none_iff.mp h entry hentry (Or.inl hterminal)
  rw [fault?_eq_map_undefined hapart] at h
  exact Option.map_eq_none_iff.mp h

theorem startSymbol_eq_error_iff {e : GrammarError} :
    g.startSymbol settings = .error e ↔
      ∃ name, settings.start = some name ∧ name ∉ g.symbols.keys ∧ e = .unknownStart name := by
  unfold startSymbol
  split
  · next name hname =>
      by_cases hmem : name ∈ g.symbols.keys
      · rw [if_pos (Table.contains_iff.mpr hmem)]
        simp [hname, hmem]
      · rw [if_neg (mt Table.contains_iff.mp hmem)]
        simp [hname, hmem, eq_comm]
  · next hname => simp [hname]

theorem underPolicy_eq_error {p : Parser} {e : GrammarError}
    (h : p.underPolicy policy = .error e) : policy = .deny ∧ ∃ c, e = .conflict c := by
  cases policy with
  | ignore => cases h
  | warn => cases h
  | deny =>
      simp only [Parser.underPolicy] at h
      split at h
      · cases h
      · next c _ _ =>
          injection h with h
          exact ⟨rfl, c, h.symm⟩

/-- A parser is refused for no other cause than a start symbol that does not exist, which
comes before everything else, and a conflict where conflicts are denied. -/
structure RefusedForCause (g : Grammar) : Prop where
  cause {settings : Settings} {policy : ConflictPolicy} {e : GrammarError}
    (h : Parser.build g settings policy = .error e) :
    (∃ name, e = .unknownStart name) ∨ policy = .deny ∧ ∃ c, e = .conflict c
  unknownStart (settings : Settings) (policy : ConflictPolicy) (name : String) :
    Parser.build g settings policy = .error (.unknownStart name) ↔
      settings.start = some name ∧ name ∉ g.symbols.keys

theorem refusedForCause (hfault : g.fault? = none) : RefusedForCause g where
  cause {settings policy e} h := by
    cases hstart : g.startSymbol settings with
    | error other =>
        rw [Parser.build, hstart] at h
        injection h with h
        obtain ⟨name, -, -, rfl⟩ := startSymbol_eq_error_iff.mp hstart
        exact Or.inl ⟨name, h.symm⟩
    | ok start =>
        rw [Parser.build_of_defined hstart (undefined?_of_fault? hfault)] at h
        exact Or.inr (underPolicy_eq_error h)
  unknownStart settings policy name := by
    cases hstart : g.startSymbol settings with
    | error other =>
        obtain ⟨asked, hasked, habsent, rfl⟩ := startSymbol_eq_error_iff.mp hstart
        rw [Parser.build, hstart]
        constructor
        · intro h
          obtain rfl : asked = name := by simpa using h
          exact ⟨hasked, habsent⟩
        · rintro ⟨hname, -⟩
          obtain rfl : asked = name := Option.some.inj (hasked.symm.trans hname)
          rfl
    | ok start =>
        rw [Parser.build_of_defined hstart (undefined?_of_fault? hfault)]
        constructor
        · intro h
          obtain ⟨-, c, hc⟩ := underPolicy_eq_error h
          cases hc
        · rintro ⟨hname, habsent⟩
          rw [startSymbol_eq_error_iff.mpr ⟨name, hname, habsent, rfl⟩] at hstart
          cases hstart

/-- Building a parser and analyzing agree on which grammars are fit. A grammar that can be
analyzed is refused a parser for a cause of the parser's own only. Where no symbol is named
like a terminal and the start symbol exists, the two succeed together and otherwise fail for
the same name, and that is so whether all names are looked up first or each in turn. -/
theorem build_agrees_analyze (g : Grammar) :
    (∀ mode analyzed, g.analyze mode = .ok analyzed →
      RefusedForCause g ∧ RefusedForCause analyzed) ∧
    (∀ settings mode, (∀ name ∈ g.symbols.keys, name ∉ g.header.terminals.keys) →
      (∀ name ∈ settings.start, name ∈ g.symbols.keys) →
      (∃ p analyzed, Parser.build g settings .ignore = .ok p ∧
        g.analyze mode = .ok analyzed) ∨
      ∃ name, Parser.build g settings .ignore = .error (.undefined name) ∧
        g.analyze mode = .error (.undefined name)) ∧
    ∀ settings policy,
      Parser.build g settings policy = InTurn.build g settings policy := by
  refine ⟨fun mode analyzed h => ?_, fun settings mode hapart hstart => ?_,
    fun settings policy => (InTurn.build_eq g settings policy).symm⟩
  · exact ⟨refusedForCause (analyze_eq_ok h).1, refusedForCause (fault?_of_analyze h)⟩
  · obtain ⟨start, hstart⟩ := exists_startSymbol hstart
    have hfault := fault?_eq_map_undefined hapart
    cases hnames : g.undefined? g.mentionedNames with
    | none =>
        rw [hnames] at hfault
        exact Or.inl ⟨_, _, Parser.build_of_defined hstart hnames, analyze_of_valid hfault⟩
    | some name =>
        rw [hnames] at hfault
        refine Or.inr ⟨name, ?_, ?_⟩
        · simp only [Parser.build, hstart, hnames]
        · simp only [analyze, hfault, Option.map_some]

/-- A grammar with an expansion that ends in a name without a meaning and a later one that
begins with another. -/
def straying : Grammar where
  header := .ofItems [.terminal "A" "a"]
  symbols := Symbol.tableOfRules [⟨"s", ["A", "gap"]⟩, ⟨"s", ["lost", "A"]⟩]

theorem build_agrees_analyze_straying :
    (∀ name ∈ straying.symbols.keys, name ∉ straying.header.terminals.keys) ∧
      Parser.build straying (.ofHeader straying.header) .ignore =
        .error (.undefined "gap") ∧
      straying.analyze .follow = .error (.undefined "gap") := by
  have hapart : ∀ name ∈ straying.symbols.keys, name ∉ straying.header.terminals.keys := by
    decide
  have hstart : ∀ name ∈ (Settings.ofHeader straying.header).start,
      name ∈ straying.symbols.keys := by
    intro name hname
    cases hname
  have hrefused : straying.analyze .follow = .error (.undefined "gap") := by rfl
  refine ⟨hapart, ?_, hrefused⟩
  rcases (build_agrees_analyze straying).2.1 _ .follow hapart hstart with
    ⟨_, _, -, hok⟩ | ⟨name, hbuild, herror⟩
  · rw [hrefused] at hok
    cases hok
  · rw [hrefused] at herror
    cases herror
    exact hbuild

end Descent.Grammar
