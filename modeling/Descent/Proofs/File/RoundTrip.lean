import Descent.File.Writer
import Descent.Proofs.Analysis.State
import Descent.Proofs.File.Line
import Descent.Proofs.File.Sections
import Descent.Proofs.File.Tables

/-!
# What is written is read back

A grammar whose names and values fit on their lines (`Writable`) is read back
from the text that is written for it, but for what an analysis has found
(`parse_write`). Every grammar that is read from a file is of that kind
(`writable_of_parse`). So reading, writing and reading again gives the same
grammar (`write_roundTrip`).

All lines that are written have the same form, a key and a value with a
separator and two blanks between them. The blanks do the work: nothing that
means something to the reader arises where a key, a separator and a value meet,
since no mark holds a blank, and the reader trims the blanks away again.
-/

namespace Descent

open Text File

/-! ## What can be written -/

/-- A text that keeps to its line and its section. -/
structure Fits (s : List Char) : Prop where
  newline : '\n' ∉ s
  comment : '#' ∉ s
  mark : ¬ sectionMark <:+: s

/-- A text that may be a key or a value. -/
structure Plain (s : String) : Prop extends Fits s.toList where
  trimmed : trim s.toList = s.toList

/-- A text that may be a name in an expansion. -/
structure Spelled (s : String) : Prop extends Fits s.toList where
  solid : Solid s.toList
  ne_empty : s.toList ≠ []

/-- A grammar whose texts do not hold what means something at their places. -/
structure Grammar.Writable (g : Grammar) : Prop where
  terminals : ∀ entry ∈ g.header.terminals.entries, Plain entry.1 ∧
    Plain entry.2 ∧ '=' ∉ entry.1.toList ∧ entry.1.toList.head? ≠ some '%'
  options : ∀ entry ∈ g.header.options.entries, Plain entry.1 ∧
    Plain entry.2 ∧ '=' ∉ entry.1.toList
  symbols : ∀ entry ∈ g.symbols.entries, Plain entry.1 ∧
    ¬ [':', '='] <:+: entry.1.toList ∧ entry.2.expansions ≠ [] ∧
    ∀ expansion ∈ entry.2.expansions, ∀ name ∈ expansion, Spelled name
  userCode : ¬ sectionMark <:+: g.userCode.toList

instance (s : List Char) : Decidable (Fits s) :=
  decidable_of_iff ('\n' ∉ s ∧ '#' ∉ s ∧ ¬ sectionMark <:+: s)
    ⟨fun ⟨h, h', h''⟩ => ⟨h, h', h''⟩,
      fun h => ⟨h.newline, h.comment, h.mark⟩⟩

instance (s : String) : Decidable (Plain s) :=
  decidable_of_iff (Fits s.toList ∧ trim s.toList = s.toList)
    ⟨fun ⟨h, h'⟩ => ⟨h, h'⟩, fun h => ⟨h.toFits, h.trimmed⟩⟩

instance (s : String) : Decidable (Spelled s) :=
  decidable_of_iff (Fits s.toList ∧ Solid s.toList ∧ s.toList ≠ [])
    ⟨fun ⟨h, h', h''⟩ => ⟨h, h', h''⟩, fun h => ⟨h.toFits, h.solid, h.ne_empty⟩⟩

instance (g : Grammar) : Decidable g.Writable :=
  decidable_of_iff
    ((∀ entry ∈ g.header.terminals.entries, Plain entry.1 ∧
        Plain entry.2 ∧ '=' ∉ entry.1.toList ∧
        entry.1.toList.head? ≠ some '%') ∧
      (∀ entry ∈ g.header.options.entries, Plain entry.1 ∧
        Plain entry.2 ∧ '=' ∉ entry.1.toList) ∧
      (∀ entry ∈ g.symbols.entries, Plain entry.1 ∧
        ¬ [':', '='] <:+: entry.1.toList ∧ entry.2.expansions ≠ [] ∧
        ∀ expansion ∈ entry.2.expansions, ∀ name ∈ expansion, Spelled name) ∧
      ¬ sectionMark <:+: g.userCode.toList)
    ⟨fun ⟨hterminals, hoptions, hsymbols, huser⟩ =>
        ⟨hterminals, hoptions, hsymbols, huser⟩,
      fun h => ⟨h.terminals, h.options, h.symbols, h.userCode⟩⟩

section Fits

variable {a b : List Char}

theorem Fits.append_blank (ha : Fits a) (hb : Fits b) :
    Fits (a ++ ' ' :: b) where
  newline := by simp [ha.newline, hb.newline]
  comment := by simp [ha.comment, hb.comment]
  mark := by
    rw [infix_append_cons_iff (by decide), not_or]
    exact ⟨ha.mark, hb.mark⟩

theorem Fits.intercalate {texts : List (List Char)}
    (h : ∀ text ∈ texts, Fits text) : Fits ([' '].intercalate texts) := by
  induction texts with
  | nil => decide
  | cons text texts ih =>
      have hfirst := h text List.mem_cons_self
      have hrest := ih fun other hother =>
        h other (List.mem_cons_of_mem _ hother)
      cases texts with
      | nil => rwa [List.intercalate_singleton]
      | cons other texts =>
          rw [List.intercalate_cons_cons, List.append_assoc,
            List.singleton_append]
          exact hfirst.append_blank hrest

/-- Lines that hold no mark make a text that holds none and does not begin one
at its end. -/
theorem not_infix_lines {lines : List (List Char)}
    (h : ∀ line ∈ lines, Fits line) :
    ¬ sectionMark <:+: (lines.flatMap fun line => line ++ ['\n']) ++ ['%'] := by
  induction lines with
  | nil => decide
  | cons line lines ih =>
      rw [List.flatMap_cons, List.append_assoc, List.append_assoc,
        List.singleton_append, infix_append_cons_iff (by decide), not_or]
      exact ⟨(h line List.mem_cons_self).mark,
        ih fun other hother => h other (List.mem_cons_of_mem _ hother)⟩

end Fits

/-! ## Written lines -/

namespace File

/-- A line with a key and a value. -/
def writtenLine (key separator value : List Char) : List Char :=
  key ++ ' ' :: (separator ++ ' ' :: value)

variable {key separator value : List Char}

theorem fits_writtenLine (hkey : Fits key) (hseparator : Fits separator)
    (hvalue : Fits value) : Fits (writtenLine key separator value) :=
  hkey.append_blank (hseparator.append_blank hvalue)

theorem writtenLine_eq :
    writtenLine key separator value =
      (key ++ [' ']) ++ (separator ++ ' ' :: value) := by
  rw [writtenLine, List.append_cons]

theorem trim_writtenLine_ne_nil (hsolid : Solid separator)
    (hne : separator ≠ []) : trim (writtenLine key separator value) ≠ [] := by
  rw [writtenLine_eq]
  exact trim_append_solid_ne_nil hsolid hne

theorem trim_blank_append (value : List Char) :
    trim (' ' :: value) = trim value :=
  trim_append_left (a := [' ']) (by decide)

theorem keyValue_writtenLine (hsolid : Solid separator) (hne : separator ≠ [])
    (hkey : ¬ separator <:+: key) (value : List Char) :
    keyValue separator (writtenLine key separator value) = (trim key, trim value) := by
  rw [writtenLine_eq, keyValue_append hne
    (not_infix_append_blank hne hsolid (by decide) (by decide) hkey),
    trim_append_right (by decide), trim_blank_append]

end File

/-! ## Written items and rules -/

namespace HeaderItem

variable {key value : List Char}

theorem ofLine_terminal (hkey : trim key = key) (hvalue : trim value = value)
    (heq : '=' ∉ key) (hhead : key.head? ≠ some '%') :
    ofLine (trim (writtenLine key ['='] value)) =
      .terminal (.ofList key) (.ofList value) := by
  have hfree : ¬ ['='] <:+: key := mt (List.singleton_infix_iff ..).mp heq
  have hfirst (rest : List Char) :
      trimStart (writtenLine key ['='] value) ≠ '%' :: rest := by
    cases key with
    | nil =>
        intro h
        cases h
    | cons c key =>
        have hc := trimStart_eq_self_iff.mp (trimStart_of_trim hkey) c rfl
        rw [writtenLine, List.cons_append, trimStart_cons hc]
        intro h
        exact hhead (by rw [List.head?_cons, (List.cons.inj h).1])
  rw [ofLine_trim_terminal hfirst, keyValue_writtenLine (by decide) (by decide) hfree,
    hkey, hvalue]

theorem ofLine_option (heq : '=' ∉ key) (value : List Char) :
    ofLine (trim ('%' :: writtenLine key ['='] value)) =
      .option (.ofList (trim key)) (.ofList (trim value)) := by
  have hstart : trimStart ('%' :: writtenLine key ['='] value) =
      '%' :: writtenLine key ['='] value := trimStart_cons (by decide)
  have hfree : ¬ ['='] <:+: key := mt (List.singleton_infix_iff ..).mp heq
  rw [ofLine_trim_option hstart, keyValue_writtenLine (by decide) (by decide) hfree]

end HeaderItem

theorem Rule.ofLine_written {name : List Char} {names : List (List Char)}
    (hname : trim name = name) (hfree : ¬ [':', '='] <:+: name)
    (hnames : ∀ text ∈ names, Solid text ∧ text ≠ []) :
    Rule.ofLine (trim (writtenLine name [':', '='] ([' '].intercalate names))) =
      ⟨.ofList name, names.map .ofList⟩ := by
  rw [Rule.ofLine_trim, Rule.ofLine, keyValue_writtenLine (by decide) (by decide) hfree,
    hname]
  show Rule.mk _ ((words (trim _)).map _) = _
  rw [words_trim, words_intercalate hnames]

/-! ## Written sections -/

theorem Text.toList_unlines (lines : List String) :
    (unlines lines).toList =
      (lines.map String.toList).flatMap fun line => line ++ ['\n'] := by
  simp [unlines, String.toList_join, List.flatMap_map]

namespace Grammar

/-- The grammar as it was before any analysis. -/
def unanalyzed (g : Grammar) : Grammar :=
  { g with symbols := g.symbols.map Symbol.unanalyzed }

/-- The characters of a text made of some lines. -/
def textOf (lines : List String) : List Char :=
  (lines.map String.toList).flatMap fun line => line ++ ['\n']

variable {g : Grammar}

theorem map_toList_fileLines (h : Header) :
    h.fileLines.map String.toList =
      h.terminals.entries.map (fun entry =>
        writtenLine entry.1.toList ['='] entry.2.toList) ++
      h.options.entries.map fun entry =>
        writtenLine ('%' :: ' ' :: entry.1.toList) ['='] entry.2.toList := by
  rw [Header.fileLines, List.map_append, List.map_map, List.map_map]
  refine congrArg₂ _ (List.map_congr_left fun entry _ => ?_)
    (List.map_congr_left fun entry _ => ?_)
  · simp [writtenLine]
  · simp [writtenLine]

theorem map_toList_ruleLines (g : Grammar) :
    g.ruleLines.map String.toList = g.symbols.entries.flatMap fun entry =>
      entry.2.expansions.map fun expansion =>
        writtenLine entry.1.toList [':', '=']
          ([' '].intercalate (expansion.map String.toList)) := by
  rw [ruleLines, List.map_flatMap]
  refine List.flatMap_congr fun entry _ => ?_
  rw [Symbol.fileLines, List.map_map]
  refine List.map_congr_left fun expansion _ => ?_
  simp [writtenLine, String.toList_intercalate]

theorem toList_write (g : Grammar) :
    g.write.toList = textOf g.header.fileLines ++ (sectionMark ++
      (textOf ("" :: g.ruleLines) ++ (sectionMark ++ g.userCode.toList))) := by
  simp [write, toList_unlines, textOf, sectionMark]

theorem Writable.fits_fileLines (hg : g.Writable) :
    ∀ line ∈ g.header.fileLines.map String.toList,
      Fits line ∧ trim line ≠ [] := by
  rw [map_toList_fileLines]
  intro line hline
  rcases List.mem_append.mp hline with hline | hline
  · obtain ⟨entry, hentry, rfl⟩ := List.mem_map.mp hline
    obtain ⟨hkey, hvalue, -⟩ := hg.terminals entry hentry
    exact ⟨fits_writtenLine hkey.toFits (by decide) hvalue.toFits,
      trim_writtenLine_ne_nil (by decide) (by decide)⟩
  · obtain ⟨entry, hentry, rfl⟩ := List.mem_map.mp hline
    obtain ⟨hkey, hvalue, -⟩ := hg.options entry hentry
    have hoption : Fits ('%' :: ' ' :: entry.1.toList) :=
      Fits.append_blank (a := ['%']) (by decide) hkey.toFits
    exact ⟨fits_writtenLine hoption (by decide) hvalue.toFits,
      trim_writtenLine_ne_nil (by decide) (by decide)⟩

theorem Writable.fits_ruleLines (hg : g.Writable) :
    ∀ line ∈ g.ruleLines.map String.toList, Fits line ∧ trim line ≠ [] := by
  rw [map_toList_ruleLines]
  intro line hline
  obtain ⟨entry, hentry, hline⟩ := List.mem_flatMap.mp hline
  obtain ⟨expansion, hmem, rfl⟩ := List.mem_map.mp hline
  obtain ⟨hname, -, -, hspelled⟩ := hg.symbols entry hentry
  have hnames : Fits ([' '].intercalate (expansion.map String.toList)) := by
    refine Fits.intercalate fun text htext => ?_
    obtain ⟨name, hin, rfl⟩ := List.mem_map.mp htext
    exact (hspelled expansion hmem name hin).toFits
  exact ⟨fits_writtenLine hname.toFits (by decide) hnames,
    trim_writtenLine_ne_nil (by decide) (by decide)⟩

theorem contentLines_textOf {lines : List String}
    (h : ∀ line ∈ lines.map String.toList, Fits line ∧ trim line ≠ []) :
    contentLines (textOf lines) = (lines.map String.toList).map trim :=
  (contentLines_terminated _).trans (flatMap_contentLines_written fun line hline =>
    ⟨(h line hline).1.newline, (h line hline).1.comment, (h line hline).2⟩)

theorem Writable.ofLine_terminal (hg : g.Writable) {entry : String × String}
    (hentry : entry ∈ g.header.terminals.entries) :
    HeaderItem.ofLine (trim (writtenLine entry.1.toList ['='] entry.2.toList)) =
      .terminal entry.1 entry.2 := by
  obtain ⟨hkey, hvalue, heq, hhead⟩ := hg.terminals entry hentry
  have hline := HeaderItem.ofLine_terminal hkey.trimmed hvalue.trimmed heq hhead
  rwa [String.ofList_toList, String.ofList_toList] at hline

/-- Behind an option mark the key may have blanks in front. -/
theorem Writable.ofLine_option (hg : g.Writable) {entry : String × String}
    (hentry : entry ∈ g.header.options.entries) {key : List Char}
    (heq : '=' ∉ key) (htrim : trim key = entry.1.toList) :
    HeaderItem.ofLine (trim ('%' :: writtenLine key ['='] entry.2.toList)) =
      .option entry.1 entry.2 := by
  obtain ⟨-, hvalue, -⟩ := hg.options entry hentry
  rw [HeaderItem.ofLine_option heq, htrim, hvalue.trimmed, String.ofList_toList,
    String.ofList_toList]

theorem Writable.parse_header (hg : g.Writable) :
    Header.parse (.ofList (textOf g.header.fileLines)) = g.header := by
  have hitems : ((g.header.fileLines.map String.toList).map trim).map
      HeaderItem.ofLine = g.header.items := by
    rw [map_toList_fileLines, List.map_append, List.map_append, Header.items]
    simp only [List.map_map]
    refine congrArg₂ _ (List.map_congr_left fun entry hentry => ?_)
      (List.map_congr_left fun entry hentry => ?_)
    · exact hg.ofLine_terminal hentry
    · obtain ⟨hkey, -, heq⟩ := hg.options entry hentry
      have hfree : '=' ∉ ' ' :: entry.1.toList := by simp [heq]
      exact hg.ofLine_option hentry hfree
        ((trim_blank_append _).trans hkey.trimmed)
  rw [Header.parse, HeaderItem.listOfText, String.toList_ofList,
    contentLines_textOf hg.fits_fileLines, hitems, Header.ofItems_items]

theorem Writable.parse_rules (hg : g.Writable) :
    Symbol.parseTable (.ofList (textOf ("" :: g.ruleLines))) =
      g.symbols.map Symbol.unanalyzed := by
  have hlines : contentLines (textOf ("" :: g.ruleLines)) =
      (g.ruleLines.map String.toList).map trim :=
    (contentLines_newline (textOf g.ruleLines)).trans
      (contentLines_textOf hg.fits_ruleLines)
  have hrules : ((g.ruleLines.map String.toList).map trim).map Rule.ofLine =
      g.symbols.entries.flatMap fun entry => entry.2.rules entry.1 := by
    rw [map_toList_ruleLines, List.map_flatMap, List.map_flatMap]
    refine List.flatMap_congr fun entry hentry => ?_
    obtain ⟨hname, hfree, -, hspelled⟩ := hg.symbols entry hentry
    rw [List.map_map, List.map_map, Symbol.rules]
    refine List.map_congr_left fun expansion hmem => ?_
    have hsolid : ∀ text ∈ expansion.map String.toList,
        Solid text ∧ text ≠ [] := by
      intro text htext
      obtain ⟨name, hin, rfl⟩ := List.mem_map.mp htext
      have hname := hspelled expansion hmem name hin
      exact ⟨hname.solid, hname.ne_empty⟩
    have hline := Rule.ofLine_written hname.trimmed hfree hsolid
    rw [String.ofList_toList, List.map_map] at hline
    simpa using hline
  rw [Symbol.parseTable, Rule.listOfText, String.toList_ofList, hlines, hrules]
  exact Symbol.tableOfRules_rules fun entry hentry =>
    (hg.symbols entry hentry).2.2.1

/-- What is written is read back, but for what an analysis has found. -/
theorem parse_write (hg : g.Writable) : parse g.write = .ok g.unanalyzed := by
  have hmap : ∀ lines : List String,
      (∀ line ∈ lines.map String.toList, Fits line ∧ trim line ≠ []) →
      ¬ sectionMark <:+: textOf lines ++ ['%'] := fun _ h =>
    not_infix_lines fun line hline => (h line hline).1
  have hrules : ¬ sectionMark <:+: textOf ("" :: g.ruleLines) ++ ['%'] := by
    refine not_infix_lines fun line hline => ?_
    rcases List.mem_cons.mp hline with rfl | hline
    · decide
    · exact (hg.fits_ruleLines line hline).1
  have hsplit := Sections.split_append (hmap _ hg.fits_fileLines) hrules
    hg.userCode
  rw [← toList_write, String.ofList_toList] at hsplit
  rw [parse, hsplit]
  show Except.ok (ofSections _) = _
  rw [ofSections, hg.parse_header, hg.parse_rules, String.ofList_toList]
  rfl

end Grammar

/-! ## What is read can be written -/

section Reading

variable {text line part separator : List Char}

theorem fits_of_isInfix (hline : line ∈ contentLines text)
    (hmark : ¬ sectionMark <:+: text) (hpart : part <:+: line) : Fits part := by
  obtain ⟨-, -, hcomment, hnewline, hin⟩ := of_mem_contentLines hline
  exact ⟨fun h => hnewline (hpart.subset h), fun h => hcomment (hpart.subset h),
    fun h => hmark (h.trans (hpart.trans hin))⟩

theorem plain_of_keyValue (hne : separator ≠ [])
    (hline : line ∈ contentLines text) (hmark : ¬ sectionMark <:+: text)
    (hpart : part <:+: line) :
    Plain (.ofList (keyValue separator part).1) ∧
      Plain (.ofList (keyValue separator part).2) := by
  obtain ⟨hkey, hvalue⟩ := keyValue_isInfix hne part
  obtain ⟨htrim, htrim'⟩ := trim_keyValue separator part
  have hfits := fits_of_isInfix hline hmark (hkey.trans hpart)
  have hfits' := fits_of_isInfix hline hmark (hvalue.trans hpart)
  exact ⟨⟨by rwa [String.toList_ofList], by rwa [String.toList_ofList]⟩,
    ⟨by rwa [String.toList_ofList], by rwa [String.toList_ofList]⟩⟩

theorem HeaderItem.ofLine_eq_terminal {name value : String}
    (h : ofLine line = .terminal name value) :
    line.head? ≠ some '%' ∧ name = .ofList (keyValue ['='] line).1 ∧
      value = .ofList (keyValue ['='] line).2 := by
  unfold ofLine at h
  split at h
  · cases h
  · next hhead =>
      obtain ⟨rfl, rfl⟩ := HeaderItem.terminal.inj h
      refine ⟨fun hfirst => ?_, rfl, rfl⟩
      obtain ⟨rest, rfl⟩ := List.head?_eq_some_iff.mp hfirst
      exact hhead rest rfl

theorem HeaderItem.ofLine_eq_option {key value : String}
    (h : ofLine line = .option key value) :
    ∃ rest, line = '%' :: rest ∧ key = .ofList (keyValue ['='] rest).1 ∧
      value = .ofList (keyValue ['='] rest).2 := by
  unfold ofLine at h
  split at h
  · next rest =>
      obtain ⟨rfl, rfl⟩ := HeaderItem.option.inj h
      exact ⟨rest, rfl, rfl, rfl⟩
  · cases h

theorem not_mem_key (line : List Char) :
    '=' ∉ (keyValue ['='] line).1 := fun h =>
  not_infix_key (by simp) line ((List.singleton_infix_iff ..).mpr h)

theorem Header.plain_of_terminal {text : String}
    (hmark : ¬ sectionMark <:+: text.toList) {entry : String × String}
    (hentry : entry ∈ (Header.parse text).terminals.entries) :
    Plain entry.1 ∧ Plain entry.2 ∧ '=' ∉ entry.1.toList ∧
      entry.1.toList.head? ≠ some '%' := by
  obtain ⟨line, hline, hitem⟩ :=
    List.mem_map.mp (Header.terminal_mem_of_ofItems hentry)
  obtain ⟨htrim, -⟩ := of_mem_contentLines hline
  obtain ⟨hhead, hkey, hvalue⟩ := HeaderItem.ofLine_eq_terminal hitem
  have hne : ['='] ≠ [] := by decide
  obtain ⟨hplain, hplain'⟩ := plain_of_keyValue hne hline hmark List.infix_rfl
  rw [hkey, hvalue, String.toList_ofList]
  refine ⟨hplain, hplain', not_mem_key line, fun hfirst => hhead ?_⟩
  obtain ⟨rest, hrest⟩ := List.head?_eq_some_iff.mp hfirst
  obtain ⟨tail, htail⟩ := key_isPrefix hne htrim
  rw [← htail, hrest]
  rfl

theorem Header.plain_of_option {text : String}
    (hmark : ¬ sectionMark <:+: text.toList) {entry : String × String}
    (hentry : entry ∈ (Header.parse text).options.entries) :
    Plain entry.1 ∧ Plain entry.2 ∧ '=' ∉ entry.1.toList := by
  obtain ⟨line, hline, hitem⟩ :=
    List.mem_map.mp (Header.option_mem_of_ofItems hentry)
  obtain ⟨rest, rfl, hkey, hvalue⟩ := HeaderItem.ofLine_eq_option hitem
  have hne : ['='] ≠ [] := by decide
  obtain ⟨hplain, hplain'⟩ :=
    plain_of_keyValue hne hline hmark (List.suffix_cons '%' rest).isInfix
  rw [hkey, hvalue, String.toList_ofList]
  exact ⟨hplain, hplain', not_mem_key rest⟩

theorem Symbol.plain_of_entry {text : String}
    (hmark : ¬ sectionMark <:+: text.toList) {name : String} {s : Symbol}
    (hentry : (name, s) ∈ (Symbol.parseTable text).entries)
    {expansion : Expansion} (hmem : expansion ∈ s.expansions) :
    Plain name ∧ ¬ [':', '='] <:+: name.toList ∧
      ∀ other ∈ expansion, Spelled other := by
  obtain ⟨line, hline, hrule⟩ :=
    List.mem_map.mp (Symbol.rule_mem_of_tableOfRules hentry hmem)
  obtain ⟨rfl, rfl⟩ := Rule.mk.inj hrule
  have hne : [':', '='] ≠ [] := by decide
  obtain ⟨hplain, -⟩ := plain_of_keyValue hne hline hmark List.infix_rfl
  refine ⟨hplain, ?_, fun other hother => ?_⟩
  · rw [String.toList_ofList]
    exact not_infix_key hne line
  · obtain ⟨word, hword, rfl⟩ := List.mem_map.mp hother
    obtain ⟨hsolid, hnonempty, hwithin⟩ := solid_of_mem_words hword
    have hfits := fits_of_isInfix hline hmark
      (hwithin.trans (keyValue_isInfix hne line).2)
    exact ⟨by rwa [String.toList_ofList], by rwa [String.toList_ofList],
      by rwa [String.toList_ofList]⟩

end Reading

namespace Grammar

variable {g : Grammar} {source : String}

/-- What is read can be written. -/
theorem writable_of_parse (h : parse source = .ok g) : g.Writable := by
  have hexp := expanded_of_parse h
  obtain ⟨sections, hsplit, rfl⟩ := parse_eq_ok h
  obtain ⟨hheader, hrules, huser⟩ := Sections.not_infix_of_split hsplit
  refine ⟨fun _ => Header.plain_of_terminal hheader,
    fun _ => Header.plain_of_option hheader, fun entry hentry => ?_, huser⟩
  have hne : entry.2.expansions ≠ [] :=
    hexp _ (List.mem_map.mpr ⟨entry, hentry, rfl⟩)
  obtain ⟨expansion, hmem⟩ := List.exists_mem_of_ne_nil _ hne
  obtain ⟨hname, hfree, -⟩ := Symbol.plain_of_entry hrules hentry hmem
  exact ⟨hname, hfree, hne, fun other hother =>
    (Symbol.plain_of_entry hrules hentry hother).2.2⟩

/-! ## The round trip -/

theorem unanalyzed_eq_self (h : g.Fresh) : g.unanalyzed = g := by
  have hentries : (g.symbols.map Symbol.unanalyzed).entries =
      g.symbols.entries := by
    refine (List.map_congr_left fun entry hentry => ?_).trans (List.map_id _)
    exact Prod.ext rfl (h _ (List.mem_map.mpr ⟨entry, hentry, rfl⟩)).unanalyzed
  rw [unanalyzed, Table.ext hentries]

theorem fresh_of_mem_unanalyzed (hg : g.Writable) {s : Symbol}
    (hs : s ∈ g.unanalyzed.symbols.values) :
    s.Fresh ∧ (s.nullable = true ↔ [] ∈ s.expansions) := by
  obtain ⟨entry, hentry, rfl⟩ := List.mem_map.mp hs
  obtain ⟨⟨name, t⟩, ht, rfl⟩ := List.mem_map.mp hentry
  have hfresh := t.fresh_unanalyzed
  have hne : t.expansions ≠ [] := (hg.symbols _ ht).2.2.1
  refine ⟨hfresh, ?_⟩
  rw [← hfresh.marked, Symbol.nullable, Bool.or_eq_true, List.isEmpty_iff]
  exact or_iff_right hne

/-- A grammar that can be written is read back from its text with the same
header, expansions and user code in the same order, but with none of its symbols
analyzed, so nothing is lost of a grammar that never was. And whatever source a
grammar is read from, it can be written and is read back as it is. -/
theorem write_roundTrip :
    (∀ g : Grammar, g.Writable → ∃ g', parse g.write = .ok g' ∧
      g'.header = g.header ∧
      Analysis.outline g'.symbols = Analysis.outline g.symbols ∧
      g'.userCode = g.userCode ∧
      (∀ s ∈ g'.symbols.values, s.Fresh ∧
        (s.nullable = true ↔ [] ∈ s.expansions)) ∧
      (g.Fresh → g' = g)) ∧
    ∀ (source : String) (g : Grammar), parse source = .ok g →
      g.Writable ∧ g.Fresh ∧ parse g.write = .ok g := by
  refine ⟨fun g hg => ⟨g.unanalyzed, parse_write hg, rfl, ?_, rfl,
    fun _ => fresh_of_mem_unanalyzed hg, unanalyzed_eq_self⟩,
    fun source g h => ?_⟩
  · exact List.map_map
  · have hwritable := writable_of_parse h
    have hfresh := fresh_of_parse h
    refine ⟨hwritable, hfresh, ?_⟩
    rw [parse_write hwritable, unanalyzed_eq_self hfresh]

/-- A source with a nameless terminal and a nameless symbol, with marks at the
ends of names, and with the lines of a symbol apart. -/
def awkwardSource : String :=
  "= a=b\nx% = := # note\r\n% %o\n%%\n\na: := := %\n := a:\na: :=\n%%%x"

/-- The grammar of `awkwardSource`. -/
def awkward : Grammar where
  header := .ofItems [.terminal "" "a=b", .terminal "x%" ":=", .option "%o" ""]
  symbols := Symbol.tableOfRules
    [⟨"a:", [":=", "%"]⟩, ⟨"a:", []⟩, ⟨"", ["a:"]⟩]
  userCode := "%x"

set_option maxRecDepth 4000 in
theorem write_roundTrip_awkward :
    awkward.Writable ∧ awkward.Fresh ∧
      (∃ g', parse awkward.write = .ok g' ∧ g'.header = awkward.header ∧
        Analysis.outline g'.symbols = Analysis.outline awkward.symbols ∧
        g'.userCode = "%x") ∧
      parse awkwardSource = .ok awkward ∧
      parse awkward.write = .ok awkward := by
  have hwritable : awkward.Writable := by decide
  have hparse : parse awkwardSource = .ok awkward := by rfl
  obtain ⟨g', hread, hheader, houtline, huser, -⟩ :=
    write_roundTrip.1 awkward hwritable
  obtain ⟨-, hfresh, hagain⟩ := write_roundTrip.2 awkwardSource awkward hparse
  exact ⟨hwritable, hfresh, ⟨g', hread, hheader, houtline, huser⟩, hparse,
    hagain⟩

end Grammar

end Descent
