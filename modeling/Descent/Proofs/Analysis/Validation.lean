import Descent.Proofs.Analysis.Checked

/-!
# What an analysis refuses

A grammar is refused because of its first symbol that offends, and the error
tells what is wrong with that symbol: its name before its expansions, and of its
expansions the first name that nothing defines (`fault?_eq_some_iff`). A refused
grammar stays as it is, and with one that is not refused nothing can go wrong
any more.
-/

namespace Descent.Grammar

open Analysis

variable {g : Grammar} {mode : Mode} {name : String} {s : Symbol}
  {e : GrammarError}

/-- A name that is neither a terminal's nor a symbol's. -/
def Undefined (g : Grammar) (name : String) : Prop :=
  name ∉ g.header.terminals.keys ∧ name ∉ g.symbols.keys

/-- A symbol is named like a terminal, or an expansion of it mentions a name
that nothing defines. -/
def Offends (g : Grammar) (name : String) (s : Symbol) : Prop :=
  name ∈ g.header.terminals.keys ∨
    ∃ expansion ∈ s.expansions, ∃ token ∈ expansion, g.Undefined token

/-- What there is to report of a symbol that offends. -/
inductive Offence (g : Grammar) (name : String) (s : Symbol) :
    GrammarError → Prop
  | terminal (h : name ∈ g.header.terminals.keys) :
      Offence g name s (.expansionForTerminal name)
  | undefined {before after : List String} {token : String}
      (hname : name ∉ g.header.terminals.keys)
      (hcut : s.expansions.flatten = before ++ token :: after)
      (hbefore : ∀ other ∈ before, ¬ g.Undefined other)
      (h : g.Undefined token) : Offence g name s (.undefined token)

/-- The offence of the first symbol that offends. -/
def FirstOffence (g : Grammar) (e : GrammarError) : Prop :=
  ∃ n name s, g.symbols.at? n = some (name, s) ∧ g.Offence name s e ∧
    ∀ m < n, ∀ name' s', g.symbols.at? m = some (name', s') →
      ¬ g.Offends name' s'

/-! ## One symbol -/

theorem isNone_resolve_iff : (g.resolve name).isNone = true ↔ g.Undefined name := by
  rw [Option.isNone_iff_eq_none]
  exact resolve_eq_none_iff

theorem isTerminal_iff :
    g.header.isTerminal name = true ↔ name ∈ g.header.terminals.keys :=
  Table.contains_iff

theorem undefined?_eq_some_iff {names : List String} {token : String} :
    g.undefined? names = some token ↔ g.Undefined token ∧
      ∃ before after, names = before ++ token :: after ∧
        ∀ other ∈ before, ¬ g.Undefined other := by
  simp only [undefined?, List.find?_eq_some_iff_append, isNone_resolve_iff,
    Bool.not_eq_true', ← Bool.not_eq_true]

theorem undefined?_eq_none_iff {names : List String} :
    g.undefined? names = none ↔ ∀ token ∈ names, ¬ g.Undefined token := by
  simp only [undefined?, List.find?_eq_none, isNone_resolve_iff]

theorem symbolFault?_eq_some_iff :
    g.symbolFault? name s = some e ↔ g.Offence name s e := by
  unfold symbolFault?
  split
  · next hterminal =>
      have hterminal := isTerminal_iff.mp hterminal
      constructor
      · intro h
        injection h with h
        exact h ▸ .terminal hterminal
      · rintro (⟨-⟩ | ⟨hname, -, -, -⟩)
        · rfl
        · exact absurd hterminal hname
  · next hterminal =>
      have hterminal := mt isTerminal_iff.mpr hterminal
      constructor
      · intro h
        obtain ⟨token, htoken, rfl⟩ := Option.map_eq_some_iff.mp h
        obtain ⟨hundefined, before, after, hcut, hbefore⟩ :=
          undefined?_eq_some_iff.mp htoken
        exact .undefined hterminal hcut hbefore hundefined
      · rintro (⟨hname⟩ | ⟨-, hcut, hbefore, hundefined⟩)
        · exact absurd hname hterminal
        · rw [undefined?_eq_some_iff.mpr ⟨hundefined, _, _, hcut, hbefore⟩]
          rfl

theorem symbolFault?_eq_none_iff :
    g.symbolFault? name s = none ↔ ¬ g.Offends name s := by
  unfold symbolFault? Offends
  split
  · next hterminal => simp [isTerminal_iff.mp hterminal]
  · next hterminal =>
      rw [isTerminal_iff] at hterminal
      rw [Option.map_eq_none_iff, undefined?_eq_none_iff]
      simp only [hterminal, false_or, List.mem_flatten]
      constructor
      · rintro h ⟨expansion, hexp, token, htoken, hundefined⟩
        exact h token ⟨expansion, hexp, htoken⟩ hundefined
      · rintro h token ⟨expansion, hexp, htoken⟩ hundefined
        exact h ⟨expansion, hexp, token, htoken, hundefined⟩

/-! ## The first symbol that offends -/

theorem fault?_eq_none_iff :
    g.fault? = none ↔ ∀ entry ∈ g.symbols.entries, ¬ g.Offends entry.1 entry.2 := by
  simp only [fault?, List.findSome?_eq_none_iff, symbolFault?_eq_none_iff]

theorem fault?_eq_some_iff : g.fault? = some e ↔ g.FirstOffence e := by
  rw [fault?, List.findSome?_eq_some_iff]
  constructor
  · rintro ⟨before, entry, after, hcut, hfault, hbefore⟩
    refine ⟨before.length, entry.1, entry.2, ?_, symbolFault?_eq_some_iff.mp hfault,
      fun m hm name' s' hat => ?_⟩
    · rw [Table.at?, hcut, List.getElem?_append_right (Nat.le_refl _), Nat.sub_self,
        List.getElem?_cons_zero]
    · rw [Table.at?, hcut, List.getElem?_append_left hm] at hat
      exact symbolFault?_eq_none_iff.mp (hbefore _ (List.mem_of_getElem? hat))
  · rintro ⟨n, name, s, hat, hfault, hbefore⟩
    obtain ⟨hn, hentry⟩ := List.getElem?_eq_some_iff.mp hat
    refine ⟨g.symbols.entries.take n, (name, s), g.symbols.entries.drop (n + 1),
      ?_, symbolFault?_eq_some_iff.mpr hfault, fun entry hmem => ?_⟩
    · rw [← hentry, List.getElem_cons_drop hn, List.take_append_drop]
    · obtain ⟨m, hm, rfl⟩ := List.mem_take_iff_getElem.mp hmem
      refine symbolFault?_eq_none_iff.mpr (hbefore m (by omega) _ _ ?_)
      exact List.getElem?_eq_getElem (by omega)

/-- A grammar is refused just if a symbol offends, and for what the first such
symbol has done. A refused grammar stays as it is; otherwise every look-up by
position that the analysis makes finds something. -/
theorem analyze_validates (g : Grammar) (mode : Mode) :
    ((∃ e, g.analyze mode = .error e) ↔
        ∃ entry ∈ g.symbols.entries, g.Offends entry.1 entry.2) ∧
      (∀ e, g.analyze mode = .error e ↔ g.FirstOffence e) ∧
      (∀ e, g.analyze mode = .error e → g.tryAnalyze mode = (g, some e)) ∧
      ∀ a, g.analyze mode = .ok a → Checked.analysis mode g = some a.symbols := by
  have hanalyze (e) : g.analyze mode = .error e ↔ g.fault? = some e := by
    unfold analyze
    split
    · next fault hfault => simp [hfault]
    · next hnone => simp [hnone]
  refine ⟨?_, fun e => (hanalyze e).trans fault?_eq_some_iff, fun e he => ?_,
    fun a ha => ?_⟩
  · simp only [hanalyze, ← Option.isSome_iff_exists, ← Option.ne_none_iff_isSome]
    rw [ne_eq, fault?_eq_none_iff]
    simp only [not_forall, not_not, exists_prop]
  · rw [tryAnalyze, he]
  · rw [Checked.analysis_eq_some, symbols_of_analyze ha]

end Descent.Grammar
