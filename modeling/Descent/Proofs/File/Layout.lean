import Mathlib.Logic.Relation
import Descent.File.Header
import Descent.File.Rules
import Descent.Proofs.File.Line

/-!
# Layout and comments

Blank lines, blanks around the parts of a line and comments can be put into a
section and taken out of it again, and the section still reads the same
(`parse_relaid`).

An edit concerns one line or adds one. A line that is changed may get other
blanks, so what counts of it need not stay the same text; it is what the line is
read as that stays. For both sections this comes down to the blanks on either
side of the line's first separator (`IgnoresBlanks`). Whatever stands behind the
first comment mark is cut off before, so an edit there is no edit at all.
-/

namespace Descent

open Text

namespace File

variable {separator line line' a b blanks : List Char}

/-! ## Edits -/

/-- Lines with a newline between them. -/
def ofLines (lines : List (List Char)) : String := .ofList (['\n'].intercalate lines)

/-- An edit of a line: blanks at an end or on a side of the first separator, or a
comment. The separator is the first on its line if none begins further to the left. -/
inductive LineEdit (separator : List Char) : List Char → List Char → Prop
  | atStart (line : List Char) {blanks : List Char} (h : Blank blanks) :
      LineEdit separator line (blanks ++ line)
  | atEnd (line : List Char) {blanks : List Char} (h : Blank blanks) :
      LineEdit separator line (line ++ blanks)
  | beforeSeparator {a blanks : List Char} (b : List Char)
      (hfirst : ¬ separator <:+: a ++ separator.dropLast) (h : Blank blanks) :
      LineEdit separator (a ++ (separator ++ b)) (a ++ (blanks ++ (separator ++ b)))
  | behindSeparator {a blanks : List Char} (b : List Char)
      (hfirst : ¬ separator <:+: a ++ separator.dropLast) (h : Blank blanks) :
      LineEdit separator (a ++ (separator ++ b)) (a ++ (separator ++ (blanks ++ b)))
  | comment (line text : List Char) : LineEdit separator line (line ++ '#' :: text)

/-- An edit of a line of the header; an option may have blanks behind its mark. -/
inductive HeaderLineEdit : List Char → List Char → Prop
  | blanks {line line' : List Char} (h : LineEdit ['='] line line') :
      HeaderLineEdit line line'
  | behindMark {front blanks : List Char} (rest : List Char) (hfront : Blank front)
      (h : Blank blanks) :
      HeaderLineEdit (front ++ '%' :: rest) (front ++ '%' :: (blanks ++ rest))

/-- An edit of a line of the rules; behind the separator, the blanks between two
names may become other blanks. -/
inductive RuleLineEdit : List Char → List Char → Prop
  | blanks {line line' : List Char} (h : LineEdit [':', '='] line line') :
      RuleLineEdit line line'
  | gap {a gap gap' : List Char} (b c : List Char)
      (hfirst : ¬ [':', '='] <:+: a ++ [':'])
      (hgap : Blank gap) (hne : gap ≠ []) (hgap' : Blank gap') (hne' : gap' ≠ []) :
      RuleLineEdit (a ++ ([':', '='] ++ (b ++ (gap ++ c))))
        (a ++ ([':', '='] ++ (b ++ (gap' ++ c))))

/-- A line that is blank, or blank up to a comment. -/
def Idle (line : List Char) : Prop :=
  Blank line ∨ ∃ front text, Blank front ∧ line = front ++ '#' :: text

/-- An edit of a text: a line is edited, an idle line is put in, or a line end gets
a carriage return. -/
inductive TextEdit (edit : List Char → List Char → Prop) : String → String → Prop
  | line (above below : List (List Char)) {line line' : List Char}
      (hline : '\n' ∉ line) (hline' : '\n' ∉ line') (h : edit line line') :
      TextEdit edit (ofLines (above ++ line :: below)) (ofLines (above ++ line' :: below))
  | insert (above below : List (List Char)) {line : List Char}
      (hline : '\n' ∉ line) (h : Idle line) :
      TextEdit edit (ofLines (above ++ below)) (ofLines (above ++ line :: below))
  | lineEnd (front back : List Char) :
      TextEdit edit (.ofList (front ++ '\n' :: back)) (.ofList (front ++ '\r' :: '\n' :: back))

/-- Texts that differ by any number of edits, each of them made or undone. -/
def Relaid (edit : List Char → List Char → Prop) : String → String → Prop :=
  Relation.EqvGen (TextEdit edit)

/-! ## What a line is read as -/

/-- A line may have blanks in front of its first separator. -/
theorem keyValue_append_blank (hne : separator ≠ []) (hsolid : Solid separator)
    (hfirst : ¬ separator <:+: a ++ separator.dropLast) (hblanks : Blank blanks) :
    keyValue separator (a ++ (blanks ++ (separator ++ b))) = (trim a, trim b) := by
  by_cases hsome : blanks = []
  · rw [hsome, List.nil_append, keyValue_append hne hfirst]
  · have hfree : ¬ separator <:+: a := fun h => hfirst (h.trans List.infix_append_left)
    rw [← List.append_assoc, keyValue_append hne
      (not_infix_append_blank hne hsolid hblanks hsome hfree),
      trim_append_right hblanks]

/-- Blanks on either side of the first separator make no difference to what a line is
read as. -/
structure IgnoresBlanks {β : Type} (separator : List Char) (read : List Char → β) :
    Prop where
  before {a b blanks : List Char} (hfirst : ¬ separator <:+: a ++ separator.dropLast)
    (h : Blank blanks) :
    read (trim (a ++ (blanks ++ (separator ++ b)))) = read (trim (a ++ (separator ++ b)))
  behind {a b blanks : List Char} (hfirst : ¬ separator <:+: a ++ separator.dropLast)
    (h : Blank blanks) :
    read (trim (a ++ (separator ++ (blanks ++ b)))) = read (trim (a ++ (separator ++ b)))

end File

open File

namespace Rule

theorem ignoresBlanks : IgnoresBlanks [':', '='] ofLine where
  before hfirst h := by
    rw [ofLine_trim, ofLine_trim, ofLine, keyValue_append_blank (by decide) (by decide)
      hfirst h, ofLine, keyValue_append (by decide) hfirst]
  behind hfirst h := by
    rw [ofLine_trim, ofLine_trim, ofLine, keyValue_append (by decide) hfirst, ofLine,
      keyValue_append (by decide) hfirst, trim_append_left h]

/-- Between two names any blanks are as good as others. -/
theorem ofLine_gap {a gap gap' : List Char} (b c : List Char)
    (hfirst : ¬ [':', '='] <:+: a ++ [':'])
    (hgap : Blank gap) (hne : gap ≠ []) (hgap' : Blank gap') (hne' : gap' ≠ []) :
    ofLine (trim (a ++ ([':', '='] ++ (b ++ (gap' ++ c))))) =
      ofLine (trim (a ++ ([':', '='] ++ (b ++ (gap ++ c))))) := by
  rw [ofLine_trim, ofLine_trim, ofLine, keyValue_append (by decide) hfirst, ofLine,
    keyValue_append (by decide) hfirst]
  simp only [words_trim, words_append_blank hgap hne, words_append_blank hgap' hne']

end Rule

namespace HeaderItem

variable {a x y s rest : List Char}

/-- What stands in front decides between an option and a terminal, unless it is
blank, and then it is no option either way. -/
theorem ofLine_trim_append
    (hsame : ∀ rest, rest <:+ a →
      keyValue ['='] (rest ++ x) = keyValue ['='] (rest ++ y))
    (hx : ∀ rest, trimStart x ≠ '%' :: rest) (hy : ∀ rest, trimStart y ≠ '%' :: rest) :
    ofLine (trim (a ++ x)) = ofLine (trim (a ++ y)) := by
  obtain ⟨front, -, hfront⟩ := exists_eq_append_trimStart a
  by_cases hmark : ∃ rest, trimStart a = '%' :: rest
  · obtain ⟨rest, hrest⟩ := hmark
    have hhead (z : List Char) : trimStart (a ++ z) = '%' :: (rest ++ z) := by
      rw [trimStart_append_of_ne_nil (by rw [hrest]; exact List.cons_ne_nil _ _), hrest,
        List.cons_append]
    have hsuffix : rest <:+ a := by
      rw [hfront, hrest]
      exact (List.suffix_cons '%' rest).trans (List.suffix_append front _)
    rw [ofLine_trim_option (hhead x), ofLine_trim_option (hhead y), hsame rest hsuffix]
  · have hplain {z : List Char} (hz : ∀ rest, trimStart z ≠ '%' :: rest) (rest : List Char) :
        trimStart (a ++ z) ≠ '%' :: rest := by
      intro h
      cases hstart : trimStart a with
      | nil =>
          rw [trimStart_append_left (blank_of_trimStart_eq_nil hstart)] at h
          exact hz rest h
      | cons c tail =>
          rw [trimStart_append_of_ne_nil (by rw [hstart]; exact List.cons_ne_nil _ _),
            hstart, List.cons_append, List.cons.injEq] at h
          exact hmark ⟨tail, by rw [hstart, h.1]⟩
    rw [ofLine_trim_terminal (hplain hx), ofLine_trim_terminal (hplain hy),
      hsame a List.suffix_rfl]

theorem not_infix_of_suffix {separator : List Char}
    (hfirst : ¬ separator <:+: a ++ separator.dropLast) (h : rest <:+ a) :
    ¬ separator <:+: rest ++ separator.dropLast := by
  obtain ⟨front, rfl⟩ := h
  rw [List.append_assoc] at hfirst
  exact fun hin => hfirst (hin.trans List.infix_append_right)

theorem ignoresBlanks : IgnoresBlanks ['='] ofLine where
  before hfirst h := by
    refine ofLine_trim_append (fun rest hrest => ?_) (fun rest heq => ?_)
      fun rest heq => ?_
    · have hfirst := not_infix_of_suffix hfirst hrest
      rw [keyValue_append_blank (by decide) (by decide) hfirst h,
        keyValue_append (by decide) hfirst]
    · rw [trimStart_append_left h] at heq
      cases heq
    · cases heq
  behind hfirst h := by
    refine ofLine_trim_append (fun rest hrest => ?_) (fun rest heq => ?_)
      fun rest heq => ?_
    · have hfirst := not_infix_of_suffix hfirst hrest
      rw [keyValue_append (by decide) hfirst, keyValue_append (by decide) hfirst,
        trim_append_left h]
    · cases heq
    · cases heq

theorem ofLine_behindMark {front blanks : List Char} (rest : List Char)
    (hfront : Blank front) (h : Blank blanks) :
    ofLine (trim (front ++ '%' :: (blanks ++ rest))) =
      ofLine (trim (front ++ '%' :: rest)) := by
  have hhead (z : List Char) : trimStart (front ++ '%' :: z) = '%' :: z :=
    trimStart_append_left hfront
  rw [ofLine_trim_option (hhead _), ofLine_trim_option (hhead _),
    keyValue_append_left (by decide) (by decide) h]

end HeaderItem

namespace File

/-! ## Edited lines -/

variable {β : Type} {read : List Char → β} {separator line line' a b x y : List Char}

theorem lineContent_append_of_mem (h : '#' ∈ a) :
    lineContent (a ++ b) = lineContent a := by
  rw [lineContent, before_append_of_mem h, lineContent]

theorem lineContent_append_of_not_mem (h : '#' ∉ a) :
    lineContent (a ++ b) = trim (a ++ before ['#'] b) := by
  rw [lineContent, before_append_of_not_mem h]

theorem not_mem_of_blank {blanks : List Char} (h : Blank blanks) : '#' ∉ blanks :=
  fun hmem => absurd (h _ hmem) (by decide)

theorem lineContent_append_blank {blanks : List Char} (h : Blank blanks)
    (line : List Char) : lineContent (line ++ blanks) = lineContent line := by
  by_cases hcomment : '#' ∈ line
  · exact lineContent_append_of_mem hcomment
  · have hfree : ¬ ['#'] <:+: blanks :=
      mt (List.singleton_infix_iff ..).mp (not_mem_of_blank h)
    rw [lineContent_append_of_not_mem hcomment, before_eq_self (by decide) hfree,
      trim_append_right h, lineContent_eq_trim hcomment]

/-- Two lines that are read as the same, or that both have nothing to be read. -/
def ReadAlike (read : List Char → β) (line line' : List Char) : Prop :=
  lineContent line' = lineContent line ∨
    lineContent line ≠ [] ∧ lineContent line' ≠ [] ∧
      read (lineContent line') = read (lineContent line)

theorem ReadAlike.map_contentLines (h : ReadAlike read line line')
    (hline : '\n' ∉ line) (hline' : '\n' ∉ line') :
    (contentLines line').map read = (contentLines line).map read := by
  rw [contentLines_of_line hline, contentLines_of_line hline']
  rcases h with heq | ⟨hne, hne', hread⟩
  · rw [heq]
  · rw [List.filter_cons_of_pos (by simpa using hne'),
      List.filter_cons_of_pos (by simpa using hne)]
    exact congrArg (· :: []) hread

/-- An edit behind `a` counts only if no comment begins in `a`. Then it is enough
that the lines are read as the same up to a comment further on. -/
theorem readAlike_append (hx : trim (a ++ before ['#'] x) ≠ [])
    (hy : trim (a ++ before ['#'] y) ≠ [])
    (hread : read (trim (a ++ before ['#'] y)) = read (trim (a ++ before ['#'] x))) :
    ReadAlike read (a ++ x) (a ++ y) := by
  by_cases hcomment : '#' ∈ a
  · exact Or.inl (by
      rw [lineContent_append_of_mem hcomment, lineContent_append_of_mem hcomment])
  · rw [ReadAlike, lineContent_append_of_not_mem hcomment,
      lineContent_append_of_not_mem hcomment]
    exact Or.inr ⟨hx, hy, hread⟩

theorem LineEdit.readAlike (hne : separator ≠ []) (hsolid : Solid separator)
    (hmark : '#' ∉ separator) (hread : IgnoresBlanks separator read)
    (h : LineEdit separator line line') : ReadAlike read line line' := by
  cases h with
  | atStart line hblanks =>
      left
      rw [lineContent_append_of_not_mem (not_mem_of_blank hblanks),
        trim_append_left hblanks, lineContent]
  | atEnd line hblanks => exact Or.inl (lineContent_append_blank hblanks line)
  | beforeSeparator b hfirst hblanks =>
      refine readAlike_append ?_ ?_ ?_
      all_goals simp only [before_append_of_not_mem hmark,
        before_append_of_not_mem (not_mem_of_blank hblanks)]
      · exact trim_append_solid_ne_nil hsolid hne
      · rw [← List.append_assoc]
        exact trim_append_solid_ne_nil hsolid hne
      · exact hread.before hfirst hblanks
  | behindSeparator b hfirst hblanks =>
      refine readAlike_append ?_ ?_ ?_
      all_goals simp only [before_append_of_not_mem hmark,
        before_append_of_not_mem (not_mem_of_blank hblanks)]
      · exact trim_append_solid_ne_nil hsolid hne
      · exact trim_append_solid_ne_nil hsolid hne
      · exact hread.behind hfirst hblanks
  | comment line text =>
      left
      by_cases hcomment : '#' ∈ line
      · rw [lineContent_append_of_mem hcomment]
      · rw [lineContent_append_of_not_mem hcomment, before_singleton_cons, if_pos rfl,
          List.append_nil, lineContent_eq_trim hcomment]

theorem HeaderLineEdit.readAlike (h : HeaderLineEdit line line') :
    ReadAlike HeaderItem.ofLine line line' := by
  cases h with
  | blanks h => exact h.readAlike (by decide) (by decide) (by decide) HeaderItem.ignoresBlanks
  | behindMark rest hfront hblanks =>
      have hmark (z : List Char) : before ['#'] ('%' :: z) = '%' :: before ['#'] z := by
        rw [before_singleton_cons, if_neg (by decide)]
      refine readAlike_append ?_ ?_ ?_
      all_goals simp only [hmark, before_append_of_not_mem (not_mem_of_blank hblanks)]
      · exact trim_append_solid_ne_nil (by decide) (List.cons_ne_nil '%' [])
      · exact trim_append_solid_ne_nil (by decide) (List.cons_ne_nil '%' [])
      · exact HeaderItem.ofLine_behindMark _ hfront hblanks

theorem RuleLineEdit.readAlike (h : RuleLineEdit line line') :
    ReadAlike Rule.ofLine line line' := by
  cases h with
  | blanks h => exact h.readAlike (by decide) (by decide) (by decide) Rule.ignoresBlanks
  | @gap a gap gap' b c hfirst hgap hne hgap' hne' =>
      have hmark (z : List Char) :
          before ['#'] ([':', '='] ++ z) = [':', '='] ++ before ['#'] z :=
        before_append_of_not_mem (by decide)
      by_cases hcomment : '#' ∈ b
      · -- The gap is in a comment.
        have hsame (z : List Char) : before ['#'] (b ++ z) = before ['#'] b :=
          before_append_of_mem hcomment
        refine readAlike_append ?_ ?_ ?_
        all_goals simp only [hmark, hsame]
        · exact trim_append_solid_ne_nil (by decide) (by decide)
        · exact trim_append_solid_ne_nil (by decide) (by decide)
      · refine readAlike_append ?_ ?_ ?_
        all_goals simp only [hmark, before_append_of_not_mem hcomment,
          before_append_of_not_mem (not_mem_of_blank hgap),
          before_append_of_not_mem (not_mem_of_blank hgap')]
        · exact trim_append_solid_ne_nil (by decide) (by decide)
        · exact trim_append_solid_ne_nil (by decide) (by decide)
        · exact Rule.ofLine_gap b _ hfirst hgap hne hgap' hne'

/-! ## Edited texts -/

theorem contentLines_ofLines (lines : List (List Char)) :
    contentLines (ofLines lines).toList = lines.flatMap contentLines := by
  rw [ofLines, String.toList_ofList]
  induction lines with
  | nil => rfl
  | cons line lines ih =>
      cases lines with
      | nil => rw [List.intercalate_singleton, List.flatMap_singleton]
      | cons next lines =>
          rw [List.intercalate_cons_cons, List.append_assoc, List.singleton_append,
            contentLines_append, ih]
          rfl

theorem contentLines_of_idle (h : Idle line) (hline : '\n' ∉ line) :
    contentLines line = [] := by
  have hnil {front : List Char} (hfront : Blank front) : trim front = [] := by
    rw [trim, trimStart_of_blank hfront]
    rfl
  have hcontent : lineContent line = [] := by
    rcases h with hblank | ⟨front, text, hfront, rfl⟩
    · rw [lineContent_eq_trim (not_mem_of_blank hblank), hnil hblank]
    · rw [lineContent_append_of_not_mem (not_mem_of_blank hfront), before_singleton_cons,
        if_pos rfl, List.append_nil, hnil hfront]
  rw [contentLines_of_line hline, hcontent]
  rfl

/-- A carriage return at the end of a text is a blank at the end of its last line. -/
theorem contentLines_append_return (text : List Char) :
    contentLines (text ++ ['\r']) = contentLines text := by
  -- The induction takes off the first line.
  induction hn : text.length using Nat.strong_induction_on generalizing text with
  | h n ih =>
      by_cases hnewline : '\n' ∈ text
      · obtain ⟨line, rest, rfl, -⟩ := List.eq_append_cons_of_mem hnewline
        have hlt : rest.length < n := by
          rw [← hn, List.length_append, List.length_cons]
          omega
        rw [List.append_assoc, List.cons_append, contentLines_append,
          contentLines_append, ih rest.length hlt rest rfl]
      · have hreturn : '\n' ∉ text ++ ['\r'] := by
          rw [List.mem_append]
          exact not_or.mpr ⟨hnewline, by decide⟩
        rw [contentLines_of_line hreturn, contentLines_of_line hnewline,
          lineContent_append_blank (by decide)]

/-- One edit leaves every line that counts read as it was. -/
theorem TextEdit.map_contentLines {edit : List Char → List Char → Prop}
    {text text' : String}
    (halike : ∀ {line line'}, edit line line' → ReadAlike read line line')
    (h : TextEdit edit text text') :
    (contentLines text'.toList).map read = (contentLines text.toList).map read := by
  cases h with
  | line above below hline hline' h =>
      rw [contentLines_ofLines, contentLines_ofLines, List.flatMap_append,
        List.flatMap_append, List.flatMap_cons, List.flatMap_cons]
      simp only [List.map_append, (halike h).map_contentLines hline hline']
  | insert above below hline hidle =>
      rw [contentLines_ofLines, contentLines_ofLines, List.flatMap_append,
        List.flatMap_append, List.flatMap_cons, contentLines_of_idle hidle hline,
        List.nil_append]
  | lineEnd front back =>
      have hreturn : front ++ '\r' :: '\n' :: back = (front ++ ['\r']) ++ '\n' :: back := by
        rw [List.append_assoc, List.singleton_append]
      rw [String.toList_ofList, String.toList_ofList, hreturn, contentLines_append,
        contentLines_append, contentLines_append_return]

theorem Relaid.map_contentLines {edit : List Char → List Char → Prop}
    {text text' : String}
    (halike : ∀ {line line'}, edit line line' → ReadAlike read line line')
    (h : Relaid edit text text') :
    (contentLines text'.toList).map read = (contentLines text.toList).map read := by
  induction h with
  | rel _ _ h => exact h.map_contentLines halike
  | refl _ => rfl
  | symm _ _ _ ih => exact ih.symm
  | trans _ _ _ _ _ ih ih' => exact ih'.trans ih

/-- Layout and comments carry no meaning, in the header and in the rules. -/
theorem parse_relaid (text text' : String) :
    (Relaid HeaderLineEdit text text' → Header.parse text' = Header.parse text) ∧
      (Relaid RuleLineEdit text text' →
        Symbol.parseTable text' = Symbol.parseTable text) := by
  constructor
  · intro h
    have hitems : HeaderItem.listOfText text' = HeaderItem.listOfText text :=
      h.map_contentLines HeaderLineEdit.readAlike
    rw [Header.parse, hitems, Header.parse]
  · intro h
    have hrules : Rule.listOfText text' = Rule.listOfText text :=
      h.map_contentLines RuleLineEdit.readAlike
    rw [Symbol.parseTable, hrules, Symbol.parseTable]

/-- In the header, blanks put in front of the separator and a comment put behind an
option; in the rules, a blank line put in and the blanks between two names changed. -/
theorem parse_relaid_blanks :
    Header.parse "A =a\n%s=S# start" = Header.parse "A=a\n%s=S" ∧
      Symbol.parseTable "\nS:=A \tB" = Symbol.parseTable "S:=A B" := by
  constructor
  · have hblank : LineEdit ['='] ['A', '=', 'a'] ['A', ' ', '=', 'a'] :=
      .beforeSeparator ['a'] (show ¬ ['='] <:+: ['A'] ++ [] by decide)
        (show Blank [' '] by decide)
    have hcomment : LineEdit ['='] "%s=S".toList "%s=S# start".toList :=
      .comment "%s=S".toList " start".toList
    have hupper : TextEdit HeaderLineEdit (ofLines ["A=a".toList, "%s=S".toList])
        (ofLines ["A =a".toList, "%s=S".toList]) :=
      .line [] ["%s=S".toList] (by decide) (by decide) (.blanks hblank)
    have hlower : TextEdit HeaderLineEdit (ofLines ["A =a".toList, "%s=S".toList])
        (ofLines ["A =a".toList, "%s=S# start".toList]) :=
      .line ["A =a".toList] [] (by decide) (by decide) (.blanks hcomment)
    exact (parse_relaid _ _).1 (.trans _ _ _ (.rel _ _ hupper) (.rel _ _ hlower))
  · have hgap : RuleLineEdit "S:=A B".toList "S:=A \tB".toList :=
      .gap ['A'] ['B'] (show ¬ [':', '='] <:+: ['S'] ++ [':'] by decide)
        (show Blank [' '] by decide) (by decide) (show Blank [' ', '\t'] by decide)
        (by decide)
    have hchange : TextEdit RuleLineEdit (ofLines ["S:=A B".toList])
        (ofLines ["S:=A \tB".toList]) :=
      .line [] [] (by decide) (by decide) hgap
    have hinsert : TextEdit RuleLineEdit (ofLines ["S:=A \tB".toList])
        (ofLines [[], "S:=A \tB".toList]) :=
      .insert [] ["S:=A \tB".toList] List.not_mem_nil (.inl (by decide))
    exact (parse_relaid _ _).2 (.trans _ _ _ (.rel _ _ hchange) (.rel _ _ hinsert))

end File

end Descent
