import Descent.Grammar.Dump
import Descent.Proofs.File.RoundTrip
import Descent.Proofs.Grammar.Growth

/-!
# What a dump says about the header

The first two parts of a dump read back as the header that was dumped
(`parse_header_of_dump`). Their lines are written as in a grammar file, with a key
and a value, and their headings are comments to the reader of a header.

To say what stands above the last heading, one has to know where it is. It is on
one line only, since no other line of a dump is made of more than names, values
and sets, and none of these holds a comment mark.
-/

namespace Descent

open Text File

/-! ## The lines above a line -/

namespace Text

/-- What stands above a line in a text: all the lines in front of it. -/
def StandsAbove (above line text : String) : Prop :=
  (above = "" ∨ ∃ body, above = body ++ "\n") ∧
    ∃ below, text = above ++ line ++ "\n" ++ below

/-- A text made of lines is cut in front of a line where one of its lines begins. -/
theorem exists_upper_of_cut {lines : List (List Char)} {above line below : List Char}
    (hlines : ∀ other ∈ lines, '\n' ∉ other) (hline : '\n' ∉ line)
    (habove : above = [] ∨ ∃ body, above = body ++ ['\n'])
    (h : (lines.flatMap fun line => line ++ ['\n']) = above ++ (line ++ '\n' :: below)) :
    ∃ upper lower, lines = upper ++ line :: lower ∧
      above = upper.flatMap fun line => line ++ ['\n'] := by
  induction lines generalizing above with
  | nil =>
      have hlength := congrArg List.length h
      simp at hlength
  | cons first lines ih =>
      have hfirst := hlines first List.mem_cons_self
      have hrest : ∀ other ∈ lines, '\n' ∉ other := fun other hother =>
        hlines other (List.mem_cons_of_mem first hother)
      rw [List.flatMap_cons, List.append_assoc, List.singleton_append] at h
      rcases habove with rfl | ⟨body, rfl⟩
      · rcases eq_or_exists_of_cut hfirst h with ⟨rfl, -⟩ | ⟨rest, rfl, -⟩
        · exact ⟨[], lines, rfl, rfl⟩
        · exact absurd (List.mem_append_right first List.mem_cons_self) hline
      · rw [List.append_assoc, List.singleton_append] at h
        rcases eq_or_exists_of_cut hfirst h with ⟨rfl, heq⟩ | ⟨rest, rfl, heq⟩
        · obtain ⟨upper, lower, rfl, hupper⟩ := ih hrest (Or.inl rfl) heq
          refine ⟨first :: upper, lower, rfl, ?_⟩
          rw [List.flatMap_cons, ← hupper, List.append_nil]
        · rw [List.append_cons] at heq
          obtain ⟨upper, lower, rfl, hupper⟩ := ih hrest (Or.inr ⟨rest, rfl⟩) heq
          refine ⟨first :: upper, lower, rfl, ?_⟩
          rw [List.flatMap_cons, ← hupper, List.append_assoc, List.append_assoc,
            List.singleton_append]
          rfl

theorem standsAbove_unlines (upper : List String) (line : String) (lower : List String) :
    StandsAbove (unlines upper) line (unlines (upper ++ line :: lower)) := by
  constructor
  · rcases upper.eq_nil_or_concat with rfl | ⟨front, last, rfl⟩
    · exact Or.inl rfl
    · exact Or.inr ⟨unlines front ++ last, String.toList_injective (by simp [toList_unlines])⟩
  · exact ⟨unlines lower, String.toList_injective (by simp [toList_unlines])⟩

/-- A line that occurs once has just the lines in front of it above it. -/
theorem StandsAbove.eq_unlines {upper lower : List String} {above line : String}
    (h : StandsAbove above line (unlines (upper ++ line :: lower)))
    (hlines : ∀ other ∈ upper ++ line :: lower, '\n' ∉ other.toList)
    (hupper : line ∉ upper) (hlower : line ∉ lower) : above = unlines upper := by
  obtain ⟨habove, below, hcut⟩ := h
  have hcut : (((upper ++ line :: lower).map String.toList).flatMap fun line =>
      line ++ ['\n']) = above.toList ++ (line.toList ++ '\n' :: below.toList) := by
    rw [← toList_unlines, hcut]
    simp
  have hwhole : above.toList = [] ∨ ∃ body, above.toList = body ++ ['\n'] := by
    rcases habove with rfl | ⟨body, rfl⟩
    · exact Or.inl rfl
    · exact Or.inr ⟨body.toList, by simp⟩
  obtain ⟨front, back, hsplit, habove⟩ := exists_upper_of_cut
    (fun other hother => by
      obtain ⟨other, hin, rfl⟩ := List.mem_map.mp hother
      exact hlines other hin)
    (hlines line (by simp)) hwhole hcut
  have hnot {others : List String} (h : line ∉ others) :
      line.toList ∉ others.map String.toList := fun hmem => by
    obtain ⟨other, hother, heq⟩ := List.mem_map.mp hmem
    exact h (String.toList_injective heq ▸ hother)
  rw [List.map_append, List.map_cons,
    List.append_cons_inj_of_notMem (hnot hupper) (hnot hlower)] at hsplit
  refine String.toList_injective ?_
  rw [habove, toList_unlines, hsplit.1]

end Text

/-! ## The lines of a dump -/

/-- A text without a newline and a comment mark. -/
structure Quiet (s : String) : Prop where
  newline : '\n' ∉ s.toList
  comment : '#' ∉ s.toList

instance (s : String) : Decidable (Quiet s) :=
  decidable_of_iff ('\n' ∉ s.toList ∧ '#' ∉ s.toList)
    ⟨fun ⟨h, h'⟩ => ⟨h, h'⟩, fun h => ⟨h.newline, h.comment⟩⟩

section Quiet

variable {s t : String}

theorem Quiet.append (hs : Quiet s) (ht : Quiet t) : Quiet (s ++ t) where
  newline := by simp [hs.newline, ht.newline]
  comment := by simp [hs.comment, ht.comment]

theorem Quiet.ne (hs : Quiet s) (h : '#' ∈ t.toList) : s ≠ t := by
  rintro rfl
  exact hs.comment h

theorem Plain.quiet (h : Plain s) : Quiet s := ⟨h.newline, h.comment⟩

theorem Spelled.quiet (h : Spelled s) : Quiet s := ⟨h.newline, h.comment⟩

theorem Quiet.intercalate {separator : String} (hseparator : Quiet separator)
    {texts : List String} (h : ∀ text ∈ texts, Quiet text) :
    Quiet (separator.intercalate texts) := by
  induction texts with
  | nil => exact (by decide : Quiet "")
  | cons text texts ih =>
      have htext := h text List.mem_cons_self
      have hrest := ih fun other hother => h other (List.mem_cons_of_mem _ hother)
      cases texts with
      | nil => simpa using htext
      | cons other texts =>
          rw [String.intercalate_cons_cons]
          exact (htext.append hseparator).append hrest

/-- Quiet lines are read as they stand, only trimmed. -/
theorem flatMap_contentLines_quiet {entries : List (String × String)}
    {line : String × String → String} {written : String × String → List Char}
    (hquiet : ∀ entry ∈ entries, Quiet (line entry))
    (hwritten : ∀ entry ∈ entries, (line entry).toList = written entry)
    (hne : ∀ entry ∈ entries, trim (written entry) ≠ []) :
    ((entries.map line).map String.toList).flatMap contentLines =
      entries.map fun entry => trim (written entry) := by
  have hlines : ∀ text ∈ (entries.map line).map String.toList,
      '\n' ∉ text ∧ '#' ∉ text ∧ trim text ≠ [] := by
    intro text htext
    rw [List.map_map] at htext
    obtain ⟨entry, hentry, rfl⟩ := List.mem_map.mp htext
    refine ⟨(hquiet entry hentry).newline, (hquiet entry hentry).comment, ?_⟩
    rw [Function.comp_apply, hwritten entry hentry]
    exact hne entry hentry
  rw [flatMap_contentLines_written hlines, List.map_map, List.map_map]
  exact List.map_congr_left fun entry hentry => congrArg trim (hwritten entry hentry)

end Quiet

namespace Grammar

variable {g : Grammar}

section Writable

variable (hg : g.Writable)

include hg

theorem Writable.quiet_terminal {entry : String × String}
    (h : entry ∈ g.header.terminals.entries) : Quiet (entry.1 ++ " = " ++ entry.2) := by
  obtain ⟨hname, hvalue, -⟩ := hg.terminals entry h
  exact (hname.quiet.append (by decide)).append hvalue.quiet

theorem Writable.quiet_option {entry : String × String}
    (h : entry ∈ g.header.options.entries) :
    Quiet ("%" ++ entry.1 ++ " = " ++ entry.2) := by
  obtain ⟨hkey, hvalue, -⟩ := hg.options entry h
  have hmark : Quiet "%" := by decide
  exact ((hmark.append hkey.quiet).append (by decide)).append hvalue.quiet

theorem Writable.quiet_setText (set : TerminalSet) : Quiet (g.header.setText set) := by
  have hopen : Quiet "\x7b" := by decide
  refine (hopen.append (Quiet.intercalate (by decide) fun name hname => ?_)).append
    (by decide)
  obtain ⟨terminal, hterminal, rfl⟩ := List.mem_map.mp hname
  obtain ⟨id, -, hid⟩ := List.mem_filterMap.mp hterminal
  obtain ⟨entry, hat, rfl⟩ := Option.map_eq_some_iff.mp hid
  exact (hg.terminals entry (List.mem_of_getElem? hat)).1.quiet

theorem Writable.quiet_expansion {entry : String × Symbol}
    (h : entry ∈ g.symbols.entries) {expansion : Expansion}
    (hmem : expansion ∈ entry.2.expansions) : Quiet expansion.line := by
  obtain ⟨-, -, -, hspelled⟩ := hg.symbols entry h
  have hfront : Quiet "  := " := by decide
  refine hfront.append ?_
  split
  · decide
  · exact Quiet.intercalate (by decide) fun name hname =>
      (hspelled expansion hmem name hname).quiet

theorem Writable.quiet_symbol {entry : String × Symbol}
    (h : entry ∈ g.symbols.entries) :
    ∀ line ∈ entry.2.dumpLines g.header entry.1, Quiet line := by
  obtain ⟨hname, -⟩ := hg.symbols entry h
  have hfirst : Quiet "  first: " := by decide
  have hfollow : Quiet "  follow: " := by decide
  have hmarked : Quiet (if entry.2.nullable then " (nullable)" else "") := by
    split <;> decide
  intro line hline
  rcases List.mem_append.mp hline with hline | hline
  · simp only [List.mem_cons, List.not_mem_nil, or_false] at hline
    rcases hline with rfl | rfl | rfl
    · exact hname.quiet.append hmarked
    · exact hfirst.append (hg.quiet_setText _)
    · exact hfollow.append (hg.quiet_setText _)
  · obtain ⟨expansion, hmem, rfl⟩ := List.mem_map.mp hline
    exact hg.quiet_expansion h hmem

/-- Of the first two parts of a dump, only the headings are not quiet. -/
theorem Writable.of_mem_dumpLines {line : String} (h : line ∈ g.header.dumpLines) :
    Quiet line ∨ line = "## terminals:" ∨ line = "## options:" := by
  simp only [Header.dumpLines, Header.terminalLines, Header.optionLines,
    List.mem_append, List.mem_cons, List.mem_map, List.not_mem_nil, or_false] at h
  rcases h with (((rfl | ⟨entry, hentry, rfl⟩) | rfl) | rfl | ⟨entry, hentry, rfl⟩) | rfl
  · exact Or.inr (Or.inl rfl)
  · exact Or.inl (hg.quiet_terminal hentry)
  · exact Or.inl (by decide)
  · exact Or.inr (Or.inr rfl)
  · exact Or.inl (hg.quiet_option hentry)
  · exact Or.inl (by decide)

/-- No line of a dump breaks, and the heading of the symbols is a line but once. -/
theorem Writable.dump_eq : ∃ lower,
    g.dump = unlines (g.header.dumpLines ++ "## nonterminals:" :: lower) ∧
      (∀ line ∈ g.header.dumpLines ++ "## nonterminals:" :: lower, '\n' ∉ line.toList) ∧
      "## nonterminals:" ∉ g.header.dumpLines ∧ "## nonterminals:" ∉ lower := by
  have hlower : ∀ line ∈ g.symbols.entries.flatMap fun entry =>
      entry.2.dumpLines g.header entry.1, Quiet line := by
    intro line hline
    obtain ⟨entry, hentry, hline⟩ := List.mem_flatMap.mp hline
    exact hg.quiet_symbol hentry line hline
  refine ⟨_, rfl, fun line hline => ?_, fun hmem => ?_, fun hmem => ?_⟩
  · rcases List.mem_append.mp hline with hline | hline
    · rcases hg.of_mem_dumpLines hline with hquiet | rfl | rfl
      · exact hquiet.newline
      · decide
      · decide
    · rcases List.mem_cons.mp hline with rfl | hline
      · decide
      · exact (hlower line hline).newline
  · rcases hg.of_mem_dumpLines hmem with hquiet | heq | heq
    · exact absurd rfl (hquiet.ne (by decide))
    · exact absurd heq (by decide)
    · exact absurd heq (by decide)
  · exact absurd rfl ((hlower _ hmem).ne (by decide))

/-! ## Reading the first two parts -/

theorem Writable.contentLines_dumpLines :
    (g.header.dumpLines.map String.toList).flatMap contentLines =
      (g.header.terminals.entries.map fun entry =>
        trim (writtenLine entry.1.toList ['='] entry.2.toList)) ++
      g.header.options.entries.map fun entry =>
        trim ('%' :: writtenLine entry.1.toList ['='] entry.2.toList) := by
  have hterminals := flatMap_contentLines_quiet (fun _ hentry => hg.quiet_terminal hentry)
    (fun entry _ => show (entry.1 ++ " = " ++ entry.2).toList =
      writtenLine entry.1.toList ['='] entry.2.toList by simp [writtenLine])
    fun _ _ => trim_writtenLine_ne_nil (by decide) (by decide)
  have hoptions := flatMap_contentLines_quiet (fun _ hentry => hg.quiet_option hentry)
    (fun entry _ => show ("%" ++ entry.1 ++ " = " ++ entry.2).toList =
      '%' :: writtenLine entry.1.toList ['='] entry.2.toList by simp [writtenLine])
    fun _ _ => trim_append_solid_ne_nil (a := []) (s := ['%']) (by decide) (by decide)
  have hupper : contentLines "## terminals:".toList = [] := rfl
  have hlower : contentLines "## options:".toList = [] := rfl
  have hempty : contentLines "".toList = [] := rfl
  simp only [Header.dumpLines, Header.terminalLines, Header.optionLines,
    List.map_append, List.map_cons, List.map_nil, List.flatMap_append,
    List.flatMap_cons, List.flatMap_nil, hterminals, hoptions, hupper, hlower,
    hempty, List.nil_append, List.append_nil]

/-- The first two parts of a dump are read as the header. -/
theorem Writable.parse_dumpLines :
    Header.parse (unlines g.header.dumpLines) = g.header := by
  have hitems : ((g.header.dumpLines.map String.toList).flatMap contentLines).map
      HeaderItem.ofLine = g.header.items := by
    rw [hg.contentLines_dumpLines, List.map_append, List.map_map, List.map_map,
      Header.items]
    refine congrArg₂ _ (List.map_congr_left fun entry hentry => ?_)
      (List.map_congr_left fun entry hentry => ?_)
    · exact hg.ofLine_terminal hentry
    · obtain ⟨hkey, -, heq⟩ := hg.options entry hentry
      exact hg.ofLine_option hentry heq hkey.trimmed
  rw [Header.parse, HeaderItem.listOfText, toList_unlines, contentLines_terminated,
    hitems, Header.ofItems_items]

end Writable

/-! ## Dumps of analyzed grammars -/

theorem Writable.of_outline {g' : Grammar} (hg : g.Writable)
    (hheader : g'.header = g.header)
    (hout : Analysis.outline g'.symbols = Analysis.outline g.symbols)
    (huser : g'.userCode = g.userCode) : g'.Writable where
  terminals := hheader ▸ hg.terminals
  options := hheader ▸ hg.options
  symbols entry hentry := by
    have hline : (entry.1, entry.2.expansions) ∈ Analysis.outline g.symbols :=
      hout ▸ List.mem_map.mpr ⟨entry, hentry, rfl⟩
    obtain ⟨old, hold, heq⟩ := List.mem_map.mp hline
    have hsymbol := hg.symbols old hold
    rwa [(Prod.mk.inj heq).1, (Prod.mk.inj heq).2] at hsymbol
  userCode := huser ▸ hg.userCode

/-- Analyses leave a grammar writable and its header as it is. -/
theorem Writable.after_analyses (hg : g.Writable) (modes : List Mode) :
    (g.after (modes.map .analyze)).Writable ∧
      (g.after (modes.map .analyze)).header = g.header := by
  induction modes generalizing g with
  | nil => exact ⟨hg, rfl⟩
  | cons mode modes ih =>
      show ((Change.apply g (.analyze mode)).after (modes.map .analyze)).Writable ∧
        ((Change.apply g (.analyze mode)).after (modes.map .analyze)).header = g.header
      rcases apply_analyze g mode with ⟨-, heq⟩ | heq
      · rw [heq]
        exact ih (g := { g with symbols := (g.analysis mode).symbols })
          (hg.of_outline rfl outline_analysis rfl)
      · rw [heq]
        exact ih hg

/-- What stands in a dump above the heading of the symbols is read as the header of
the grammar. That is so for every grammar that was read from a source, whatever
analyses it went through. -/
theorem parse_header_of_dump {source : String} (h : parse source = .ok g)
    (modes : List Mode) :
    (∃ above, StandsAbove above "## nonterminals:"
        (g.after (modes.map .analyze)).dump) ∧
      ∀ above, StandsAbove above "## nonterminals:"
          (g.after (modes.map .analyze)).dump →
        Header.parse above = (g.after (modes.map .analyze)).header ∧
          (g.after (modes.map .analyze)).header = g.header := by
  obtain ⟨hwritable, hheader⟩ := (writable_of_parse h).after_analyses modes
  obtain ⟨lower, hdump, hlines, hupper, hlower⟩ := hwritable.dump_eq
  rw [hdump]
  refine ⟨⟨_, standsAbove_unlines ..⟩, fun above habove => ⟨?_, hheader⟩⟩
  rw [habove.eq_unlines hlines hupper hlower, hwritable.parse_dumpLines]

/-- A source whose header has empty names, an empty value, an equals sign in a value
and an option that begins with the option mark. -/
def bareSource : String := "=\nX = a=b\n% % = c\n%\n%%\ns := X t\nt :=\n%%"

/-- The grammar of `bareSource`. -/
def bare : Grammar where
  header := .ofItems [.terminal "" "", .terminal "X" "a=b", .option "%" "c", .option "" ""]
  symbols := Symbol.tableOfRules [⟨"s", ["X", "t"]⟩, ⟨"t", []⟩]

/-- The first two parts of the dump of `bare`. -/
def bareAbove : String :=
  "## terminals:\n = \nX = a=b\n\n## options:\n%% = c\n% = \n" ++ "\n"

/-- The symbols in the dump of `bare` after an analysis. -/
def bareBelow : String :=
  "s\n  first: \x7bX\x7d\n  follow: \x7b\x7d\n  := X t\n" ++
    "t (nullable)\n  first: \x7b\x7d\n  follow: \x7b\x7d\n  := <empty>\n"

theorem parse_header_of_dump_bare :
    parse bareSource = .ok bare ∧
      StandsAbove bareAbove "## nonterminals:" (bare.after [.analyze .follow]).dump ∧
      Header.parse bareAbove = bare.header := by
  have hparse : parse bareSource = .ok bare := by rfl
  have habove : StandsAbove bareAbove "## nonterminals:"
      (bare.after [.analyze .follow]).dump :=
    ⟨Or.inr ⟨_, rfl⟩, bareBelow, by decide +kernel⟩
  obtain ⟨hread, hheader⟩ := (parse_header_of_dump hparse [.follow]).2 _ habove
  exact ⟨hparse, habove, hread.trans hheader⟩

end Grammar

end Descent
