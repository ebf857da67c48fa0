import Mathlib.Algebra.GroupWithZero.Nat
import Descent.Proofs.File.Sections

/-!
# Which sources are split

Three sections make up a source when they are what stands between two marks, and
the marks are the ones that a search from the left finds. A run of three percent
signs holds two places for a mark; the left one counts, so the first two sections
must not end in a percent sign (`MakesUp`). This says all there is to say of a
successful split.

How many marks a search from the left finds does not depend on where it stands
when a run begins: a run of percent signs gives half its length, rounded down
(`length_pieces`). So the number of sections can be read off the source
without any splitting, and a source that is not made up of three sections has
another number of them.
-/

namespace Descent

namespace File

open Text

variable {s a b piece : List Char} {c : Char} {rest : List (List Char)}

/-! ## Counting marks -/

/-- The maximal runs of percent signs in a text. -/
def percentRuns (s : List Char) : List (List Char) :=
  (s.splitOnP (· != '%')).filter fun run => !run.isEmpty

/-- How many marks fit into the runs of percent signs without overlap. -/
def markCount (s : List Char) : Nat :=
  ((percentRuns s).map fun run => run.length / 2).sum

/-- Between two other characters that stand together there is no run, which makes
no difference to the count. -/
theorem markCount_eq_sum (s : List Char) :
    markCount s = ((s.splitOnP (· != '%')).map fun run => run.length / 2).sum := by
  rw [markCount, percentRuns]
  induction s.splitOnP (· != '%') with
  | nil => rfl
  | cons run runs ih =>
      cases run with
      | nil =>
          rw [List.filter_cons_of_neg (by simp), ih, List.map_cons, List.sum_cons]
          simp
      | cons c run =>
          rw [List.filter_cons_of_pos (by simp), List.map_cons, List.map_cons,
            List.sum_cons, List.sum_cons, ih]

theorem markCount_cons_of_ne (hc : c ≠ '%') : markCount (c :: s) = markCount s := by
  rw [markCount_eq_sum, markCount_eq_sum, List.splitOnP_cons_eq_if_modifyHead,
    if_pos (by simpa using hc), List.map_cons, List.sum_cons]
  simp

/-- A percent sign on its own is no mark. -/
theorem markCount_cons_of_lone (hs : s.head? ≠ some '%') :
    markCount ('%' :: s) = markCount s := by
  cases s with
  | nil => rfl
  | cons c s =>
      have hc : c ≠ '%' := fun heq => hs (by rw [heq, List.head?_cons])
      rw [markCount_eq_sum, markCount_eq_sum, List.splitOnP_cons_eq_if_modifyHead,
        if_neg (by decide), List.splitOnP_cons_eq_if_modifyHead,
        if_pos (by simpa using hc)]
      simp

theorem markCount_mark (s : List Char) :
    markCount ('%' :: '%' :: s) = markCount s + 1 := by
  obtain ⟨run, runs, hruns⟩ :=
    List.exists_cons_of_ne_nil (List.splitOnP_ne_nil (· != '%') s)
  rw [markCount_eq_sum, markCount_eq_sum, List.splitOnP_cons_eq_if_modifyHead,
    if_neg (by decide), List.splitOnP_cons_eq_if_modifyHead, if_neg (by decide),
    hruns]
  simp only [List.modifyHead_cons, List.map_cons, List.sum_cons, List.length_cons]
  omega

/-- There is one piece more than there are marks. -/
theorem length_pieces (s : List Char) : (pieces s).length = 1 + markCount s := by
  induction s using pieces.induct with
  | case1 => rfl
  | case2 rest ih =>
      rw [pieces, List.length_cons, ih, markCount_mark]
      rfl
  | case3 c rest hno ih =>
      rw [pieces, List.length_modifyHead, ih]
      · by_cases hc : c = '%'
        · subst hc
          rw [markCount_cons_of_lone]
          intro hhead
          obtain ⟨tail, rfl⟩ := List.head?_eq_some_iff.mp hhead
          exact hno tail rfl rfl
        · rw [markCount_cons_of_ne hc]
      · exact hno

/-! ## What the pieces say of the text -/

/-- No mark begins in a text before the one behind it: the text holds none, and
does not end in a percent sign. -/
theorem not_infix_append_percent_iff :
    ¬ sectionMark <:+: a ++ ['%'] ↔
      ¬ sectionMark <:+: a ∧ a.getLast? ≠ some '%' := by
  have hend : sectionMark <:+ a ++ ['%'] ↔ a.getLast? = some '%' := by
    rw [List.getLast?_eq_some_iff]
    constructor
    · rintro ⟨front, heq⟩
      rw [sectionMark, ← List.singleton_append (l := ['%']), ← List.append_assoc] at heq
      exact ⟨front, (List.append_cancel_right heq).symm⟩
    · rintro ⟨front, rfl⟩
      exact ⟨front, by rw [List.append_assoc]; rfl⟩
  rw [List.infix_concat_iff, hend, not_or, and_comm]

theorem of_pieces_eq_singleton (h : pieces s = [a]) :
    s = a ∧ ¬ sectionMark <:+: a := by
  rw [pieces_eq] at h
  split at h
  · next parts hcut =>
      have hlength := congrArg List.length h
      rw [List.length_cons, length_pieces, List.length_singleton] at hlength
      omega
  · next hcut =>
      obtain rfl : s = a := List.singleton_inj.mp h
      exact ⟨rfl, (cut?_eq_none_iff (by decide)).mp hcut⟩

/-- The first of several pieces ends at the first mark. -/
theorem of_pieces_eq_cons_cons (h : pieces s = a :: piece :: rest) :
    ∃ b, s = a ++ (sectionMark ++ b) ∧ ¬ sectionMark <:+: a ++ ['%'] ∧
      pieces b = piece :: rest := by
  rw [pieces_eq] at h
  split at h
  · next parts hcut =>
      obtain ⟨rfl, hrest⟩ := List.cons.inj h
      obtain ⟨heq, hfirst⟩ := eq_of_cut? (by decide) hcut
      exact ⟨parts.2, heq, hfirst, hrest⟩
  · cases h

end File

namespace Sections

open File

variable {source : String} {sections : Sections}

/-- The sections stand in a source with marks between them, each the first mark
in what is left of the source. -/
structure MakesUp (sections : Sections) (source : String) : Prop where
  source : source =
    sections.header ++ "%%" ++ sections.rules ++ "%%" ++ sections.userCode
  header : ¬ sectionMark <:+: sections.header.toList
  rules : ¬ sectionMark <:+: sections.rules.toList
  userCode : ¬ sectionMark <:+: sections.userCode.toList
  header_end : sections.header.toList.getLast? ≠ some '%'
  rules_end : sections.rules.toList.getLast? ≠ some '%'

theorem MakesUp.split (h : sections.MakesUp source) :
    split source = .ok sections := by
  have hsplit := split_append
    (not_infix_append_percent_iff.mpr ⟨h.header, h.header_end⟩)
    (not_infix_append_percent_iff.mpr ⟨h.rules, h.rules_end⟩) h.userCode
  have hsource : source = .ofList (sections.header.toList ++ (sectionMark ++
      (sections.rules.toList ++ (sectionMark ++ sections.userCode.toList)))) := by
    rw [← String.toList_inj, String.toList_ofList, h.source]
    simp [sectionMark]
  rw [hsource, hsplit]
  simp only [String.ofList_toList]

theorem makesUp_of_split (h : split source = .ok sections) :
    sections.MakesUp source := by
  unfold split at h
  split at h
  · next header rules userCode hpieces =>
      injection h with h
      subst h
      obtain ⟨behind, hsource, hheader, hbehind⟩ := of_pieces_eq_cons_cons hpieces
      obtain ⟨last, rfl, hrules, hlast⟩ := of_pieces_eq_cons_cons hbehind
      obtain ⟨rfl, huser⟩ := of_pieces_eq_singleton hlast
      rw [not_infix_append_percent_iff] at hheader hrules
      constructor
      case source =>
        rw [← String.toList_inj, hsource]
        simp [sectionMark]
      all_goals simp only [String.toList_ofList]
      · exact hheader.1
      · exact hrules.1
      · exact huser
      · exact hheader.2
      · exact hrules.2
  · cases h

theorem split_eq_ok_iff : split source = .ok sections ↔ sections.MakesUp source :=
  ⟨makesUp_of_split, MakesUp.split⟩

/-- A source is split into three, or the number of its pieces is an error. -/
theorem split_cases (source : String) :
    (1 + markCount source.toList = sectionCount ∧
      ∃ sections, split source = .ok sections) ∨
    (1 + markCount source.toList ≠ sectionCount ∧
      split source = .error (.sections (1 + markCount source.toList))) := by
  rw [← length_pieces]
  unfold split
  split
  · next header rules userCode hpieces =>
      exact Or.inl ⟨by rw [hpieces]; rfl, _, rfl⟩
  · next hno =>
      refine Or.inr ⟨fun hlength => ?_, rfl⟩
      obtain ⟨header, rules, userCode, heq⟩ := List.length_eq_three.mp hlength
      exact hno header rules userCode heq

/-- A split gives the three sections that make up the source. There are no other
three. If there are none at all, it is an error that tells how many sections there
are by the runs of percent signs, which are then not three. -/
theorem split_exact (source : String) :
    (∀ sections, split source = .ok sections ↔ sections.MakesUp source) ∧
    (∀ sections sections' : Sections, sections.MakesUp source →
      sections'.MakesUp source → sections = sections') ∧
    ((¬ ∃ sections : Sections, sections.MakesUp source) →
      ∃ e, split source = .error e ∧ e = .sections (1 + markCount source.toList) ∧
        e.detail = "expected 3 sections but found " ++
          toString (1 + markCount source.toList) ∧
        1 + markCount source.toList ≠ 3) := by
  refine ⟨fun _ => split_eq_ok_iff, fun sections sections' h h' => ?_, fun hno => ?_⟩
  · exact Except.ok.inj (h.split.symm.trans h'.split)
  · rcases split_cases source with ⟨-, sections, hok⟩ | ⟨hcount, herror⟩
    · exact absurd ⟨sections, makesUp_of_split hok⟩ hno
    · exact ⟨_, herror, rfl, rfl, hcount⟩

/-- The last of three percent signs belongs to the section behind the mark. -/
example : split "a%%%b%%c%" = .ok ⟨"a", "%b", "c%"⟩ := by rfl

end Sections

end Descent
