import Descent.File.Header
import Descent.File.Rules
import Descent.Proofs.Text.Blank
import Descent.Proofs.Text.Cut

/-!
# Lines written and read

A written line counts as a whole: without a comment mark and a newline in it,
reading the line again only trims it (`flatMap_contentLines_written`). Its key and value
come back trimmed, since the blanks around the line are blanks around the key or
the value (`keyValue_trim`). A separator holds no blank: no blank takes one apart,
and none arises where blanks are taken away.

What is read is always of that kind. A line that counts is trimmed and holds
neither a comment mark nor a newline (`of_mem_contentLines`), and its key is in
front of the first separator.
-/

namespace Descent

open Text

namespace File

variable {separator line text a b blanks : List Char}

/-! ## Keys and values -/

theorem keyValue_append (hne : separator ≠ [])
    (hfirst : ¬ separator <:+: a ++ separator.dropLast) :
    keyValue separator (a ++ (separator ++ b)) = (trim a, trim b) := by
  rw [keyValue, cut?_append hne hfirst]

theorem trim_keyValue (separator line : List Char) :
    trim (keyValue separator line).1 = (keyValue separator line).1 ∧
      trim (keyValue separator line).2 = (keyValue separator line).2 := by
  unfold keyValue
  split
  · exact ⟨trim_trim _, trim_trim _⟩
  · exact ⟨trim_trim _, rfl⟩

theorem keyValue_isInfix (hne : separator ≠ []) (line : List Char) :
    (keyValue separator line).1 <:+: line ∧
      (keyValue separator line).2 <:+: line := by
  unfold keyValue
  split
  · next parts hcut =>
      have hbefore : parts.1 <:+: line := by
        rw [(eq_of_cut? hne hcut).1]
        exact List.infix_append_left
      have hbehind : parts.2 <:+: line := by
        rw [(eq_of_cut? hne hcut).1]
        exact List.infix_append_right.trans List.infix_append_right
      exact ⟨(trim_isInfix _).trans hbefore, (trim_isInfix _).trans hbehind⟩
  · exact ⟨trim_isInfix _, List.nil_infix⟩

/-- A key does not hold the separator. -/
theorem not_infix_key (hne : separator ≠ []) (line : List Char) :
    ¬ separator <:+: (keyValue separator line).1 := by
  unfold keyValue
  split
  · next parts hcut =>
      exact fun h => (eq_of_cut? hne hcut).2
        ((h.trans (trim_isInfix _)).trans List.infix_append_left)
  · next hcut =>
      exact fun h => (cut?_eq_none_iff hne).mp hcut (h.trans (trim_isInfix _))

/-- A trimmed line begins with its key. -/
theorem key_isPrefix (hne : separator ≠ []) (hline : trim line = line) :
    (keyValue separator line).1 <+: line := by
  unfold keyValue
  split
  · next parts hcut =>
      refine trim_isPrefix hline ?_
      rw [(eq_of_cut? hne hcut).1]
      exact List.prefix_append _ _
  · exact trim_isPrefix hline (List.prefix_refl _)

/-! ## Blanks around separators -/

section Separators

variable (hne : separator ≠ []) (hsolid : Solid separator)

include hne hsolid

/-- A separator does not reach across blanks. -/
theorem infix_append_blank_iff (hblanks : Blank blanks) (hsome : blanks ≠ []) :
    separator <:+: a ++ (blanks ++ b) ↔ separator <:+: a ∨ separator <:+: b := by
  induction blanks generalizing a with
  | nil => exact absurd rfl hsome
  | cons c blanks ih =>
      have hc : c ∉ separator := fun hmem => by
        have hblank := hblanks c List.mem_cons_self
        rw [hsolid c hmem] at hblank
        cases hblank
      rw [List.cons_append, infix_append_cons_iff hc]
      cases blanks with
      | nil => rfl
      | cons d blanks =>
          have hrest := ih (a := []) (fun e he => hblanks e (List.mem_cons_of_mem c he))
            (List.cons_ne_nil d blanks)
          rw [List.nil_append, List.infix_nil, or_iff_right hne] at hrest
          rw [hrest]

/-- Behind blanks a separator is the first if there is none in front of them. -/
theorem not_infix_append_blank (hblanks : Blank blanks) (hsome : blanks ≠ [])
    (h : ¬ separator <:+: a) : ¬ separator <:+: (a ++ blanks) ++ separator.dropLast := by
  rw [List.append_assoc, infix_append_blank_iff hne hsolid hblanks hsome]
  rintro (hin | hin)
  · exact h hin
  · have hlength := hin.length_le
    have hpos := List.length_pos_iff.mpr hne
    rw [List.length_dropLast] at hlength
    omega

theorem keyValue_append_left (hblanks : Blank blanks) (line : List Char) :
    keyValue separator (blanks ++ line) = keyValue separator line := by
  by_cases hsome : blanks = []
  · rw [hsome, List.nil_append]
  have hin (s : List Char) : separator <:+: blanks ++ s ↔ separator <:+: s := by
    have h := infix_append_blank_iff (a := []) (b := s) hne hsolid hblanks hsome
    rwa [List.nil_append, List.infix_nil, or_iff_right hne] at h
  cases hcut : cut? separator line with
  | none =>
      have hcut' : cut? separator (blanks ++ line) = none := by
        rw [cut?_eq_none_iff hne] at hcut ⊢
        exact mt (hin line).mp hcut
      rw [keyValue, keyValue, hcut, hcut', trim_append_left hblanks]
  | some parts =>
      obtain ⟨rfl, hfirst⟩ := eq_of_cut? hne hcut
      rw [keyValue_append hne hfirst, ← List.append_assoc, keyValue_append hne,
        trim_append_left hblanks]
      rw [List.append_assoc]
      exact mt (hin _).mp hfirst

theorem keyValue_append_right (hblanks : Blank blanks) (line : List Char) :
    keyValue separator (line ++ blanks) = keyValue separator line := by
  by_cases hsome : blanks = []
  · rw [hsome, List.append_nil]
  cases hcut : cut? separator line with
  | none =>
      have hcut' : cut? separator (line ++ blanks) = none := by
        rw [cut?_eq_none_iff hne] at hcut ⊢
        have h := infix_append_blank_iff (a := line) (b := []) hne hsolid hblanks hsome
        rw [List.append_nil, List.infix_nil, or_iff_left hne] at h
        exact mt h.mp hcut
      rw [keyValue, keyValue, hcut, hcut', trim_append_right hblanks]
  | some parts =>
      obtain ⟨rfl, hfirst⟩ := eq_of_cut? hne hcut
      rw [List.append_assoc, List.append_assoc, keyValue_append hne hfirst,
        keyValue_append hne hfirst, trim_append_right hblanks]

theorem keyValue_trimEnd (line : List Char) :
    keyValue separator (trimEnd line) = keyValue separator line := by
  obtain ⟨back, hback, heq⟩ := exists_eq_trimEnd_append line
  conv_rhs => rw [heq, keyValue_append_right hne hsolid hback]

/-- Trimming a line before it is read changes nothing. -/
theorem keyValue_trim (line : List Char) :
    keyValue separator (trim line) = keyValue separator line := by
  obtain ⟨front, back, hfront, hback, heq⟩ := exists_eq_append_trim line
  conv_rhs => rw [heq, keyValue_append_left hne hsolid hfront,
    keyValue_append_right hne hsolid hback]

end Separators

/-! ## Lines that count -/

/-- A newline ends the line in front of it, so it parts the lines of a text. -/
theorem contentLines_append (front text : List Char) :
    contentLines (front ++ '\n' :: text) = contentLines front ++ contentLines text := by
  rw [contentLines, List.splitOnP_append_cons _ _ rfl, List.map_append,
    List.filter_append]
  rfl

theorem contentLines_of_line (hline : '\n' ∉ line) :
    contentLines line = [lineContent line].filter fun line => !line.isEmpty := by
  have hfree : ∀ c ∈ line, (c == '\n') = false := fun c hc =>
    beq_false_of_ne fun heq => hline (heq ▸ hc)
  rw [contentLines, List.splitOnP_eq_singleton hfree, List.map_singleton]

theorem contentLines_append_cons (hline : '\n' ∉ line) :
    contentLines (line ++ '\n' :: text) =
      [lineContent line].filter (fun line => !line.isEmpty) ++
        contentLines text := by
  rw [contentLines_append, contentLines_of_line hline]

theorem contentLines_newline (text : List Char) :
    contentLines ('\n' :: text) = contentLines text := by
  have hnil : '\n' ∉ ([] : List Char) := List.not_mem_nil
  exact contentLines_append_cons hnil

theorem lineContent_eq_trim (hcomment : '#' ∉ line) :
    lineContent line = trim line := by
  rw [lineContent, before_eq_self (by simp)]
  rwa [List.singleton_infix_iff]

/-- A text whose lines all end in a newline counts line by line. -/
theorem contentLines_terminated (lines : List (List Char)) :
    contentLines (lines.flatMap fun line => line ++ ['\n']) =
      lines.flatMap contentLines := by
  induction lines with
  | nil => rfl
  | cons line lines ih =>
      rw [List.flatMap_cons, List.append_assoc, List.singleton_append,
        contentLines_append, ih, List.flatMap_cons]

/-- Lines without a comment mark count as they stand, only trimmed. -/
theorem flatMap_contentLines_written {lines : List (List Char)}
    (h : ∀ line ∈ lines, '\n' ∉ line ∧ '#' ∉ line ∧ trim line ≠ []) :
    lines.flatMap contentLines = lines.map trim := by
  rw [List.map_eq_flatMap]
  refine List.flatMap_congr fun line hline => ?_
  obtain ⟨hnewline, hcomment, hne⟩ := h line hline
  rw [contentLines_of_line hnewline, lineContent_eq_trim hcomment,
    List.filter_cons_of_pos (by simpa using hne)]
  rfl

/-- What is read as a line is trimmed and not empty, and holds neither a comment
mark nor a newline. -/
theorem of_mem_contentLines (h : line ∈ contentLines text) :
    trim line = line ∧ line ≠ [] ∧ '#' ∉ line ∧ '\n' ∉ line ∧
      line <:+: text := by
  obtain ⟨hmem, hne⟩ := List.mem_filter.mp h
  obtain ⟨whole, hwhole, rfl⟩ := List.mem_map.mp hmem
  obtain ⟨hfree, hwithin⟩ := of_mem_splitOnP hwhole
  have hfront : before ['#'] whole <+: whole := before_isPrefix (by simp) _
  have hin : lineContent whole <:+: whole :=
    (trim_isInfix _).trans hfront.isInfix
  refine ⟨trim_trim _, by simpa using hne, fun hmark => ?_, fun hnewline => ?_,
    hin.trans hwithin⟩
  · have hmark := (trim_isInfix _).subset hmark
    exact not_infix_before (by simp) whole
      ((List.singleton_infix_iff ..).mpr hmark)
  · exact absurd (hfree '\n' (hin.subset hnewline)) (by decide)

end File

open File

/-! ## Lines of a section -/

namespace HeaderItem

variable {line rest : List Char}

theorem ofLine_trim_option (h : trimStart line = '%' :: rest) :
    ofLine (trim line) = .option (.ofList (keyValue ['='] rest).1)
      (.ofList (keyValue ['='] rest).2) := by
  have htrim : trim line = '%' :: trimEnd rest := by
    rw [trim, h]
    exact trimEnd_append_solid (a := []) (s := ['%']) (by decide) (by decide)
  rw [htrim, ← keyValue_trimEnd (by decide) (by decide) rest]
  rfl

theorem ofLine_trim_terminal (h : ∀ rest, trimStart line ≠ '%' :: rest) :
    ofLine (trim line) = .terminal (.ofList (keyValue ['='] line).1)
      (.ofList (keyValue ['='] line).2) := by
  rw [← keyValue_trim (by decide) (by decide) line]
  unfold ofLine
  split
  · next rest htrim =>
      obtain ⟨back, -, heq⟩ := exists_eq_trimEnd_append (trimStart line)
      rw [show trimEnd (trimStart line) = '%' :: rest from htrim] at heq
      exact absurd heq (h _)
  · rfl

end HeaderItem

theorem Rule.ofLine_trim (line : List Char) : ofLine (trim line) = ofLine line := by
  rw [ofLine, keyValue_trim (by decide) (by decide), ofLine]

end Descent
