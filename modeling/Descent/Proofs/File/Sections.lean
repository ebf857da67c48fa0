import Descent.File.Sections
import Descent.Proofs.Text.Cut

/-!
# Where a source is split

The pieces of a source are cut off one after the other, each at the first mark
of what is left (`pieces_eq`). So a piece never holds a mark
(`not_infix_of_mem_pieces`), and three texts without a mark, put together with
marks between them, are found again (`split_append`). The first two of them must
not end in a percent sign, because then the mark would be found one place
earlier.
-/

namespace Descent

namespace File

open Text

/-- What separates the sections. -/
def sectionMark : List Char := ['%', '%']

variable {s a b piece : List Char}

theorem pieces_eq (s : List Char) :
    pieces s = match cut? sectionMark s with
      | some parts => parts.1 :: pieces parts.2
      | none => [s] := by
  induction s using pieces.induct with
  | case1 => rfl
  | case2 rest => rfl
  | case3 c rest hno ih =>
      have hmark : ¬ sectionMark.isPrefixOf (c :: rest) = true := by
        intro h
        obtain ⟨tail, htail⟩ := List.isPrefixOf_iff_prefix.mp h
        obtain ⟨rfl, rfl⟩ := List.cons.inj htail
        exact hno tail rfl rfl
      rw [pieces, ih, cut?, if_neg hmark]
      · cases cut? sectionMark rest with
        | none => rfl
        | some parts => rfl
      · exact hno

theorem pieces_eq_singleton (h : ¬ sectionMark <:+: s) : pieces s = [s] := by
  rw [pieces_eq, (cut?_eq_none_iff (by decide)).mpr h]

theorem pieces_append (hfirst : ¬ sectionMark <:+: a ++ ['%']) :
    pieces (a ++ (sectionMark ++ b)) = a :: pieces b := by
  rw [pieces_eq, cut?_append (by decide) hfirst]

/-- No piece holds a mark. -/
theorem not_infix_of_mem_pieces (h : piece ∈ pieces s) :
    ¬ sectionMark <:+: piece := by
  induction hn : s.length using Nat.strong_induction_on generalizing s with
  | h n ih =>
      rw [pieces_eq] at h
      split at h
      · next parts hcut =>
          obtain ⟨heq, hfirst⟩ := eq_of_cut? (by decide) hcut
          rcases List.mem_cons.mp h with rfl | h
          · exact fun hin => hfirst (hin.trans List.infix_append_left)
          · have hlt : parts.2.length < n := by
              rw [← hn, heq, List.length_append, List.length_append]
              have hpos : 0 < sectionMark.length := by decide
              omega
            exact ih _ hlt h rfl
      · next hcut =>
          rw [List.mem_singleton.mp h]
          exact (cut?_eq_none_iff (by decide)).mp hcut

end File

namespace Sections

open File

variable {header rules userCode : List Char}

/-- Sections put together with marks between them are found again. -/
theorem split_append (hheader : ¬ sectionMark <:+: header ++ ['%'])
    (hrules : ¬ sectionMark <:+: rules ++ ['%'])
    (huser : ¬ sectionMark <:+: userCode) :
    split (.ofList (header ++ (sectionMark ++
        (rules ++ (sectionMark ++ userCode))))) =
      .ok ⟨.ofList header, .ofList rules, .ofList userCode⟩ := by
  rw [split, String.toList_ofList, pieces_append hheader, pieces_append hrules,
    pieces_eq_singleton huser]

/-- No section holds a mark. -/
theorem not_infix_of_split {source : String} {sections : Sections}
    (h : split source = .ok sections) :
    ¬ sectionMark <:+: sections.header.toList ∧
      ¬ sectionMark <:+: sections.rules.toList ∧
      ¬ sectionMark <:+: sections.userCode.toList := by
  unfold split at h
  split at h
  · next header rules userCode hpieces =>
      injection h with h
      subst h
      have hall : ∀ piece ∈ pieces source.toList, ¬ sectionMark <:+: piece :=
        fun _ => not_infix_of_mem_pieces
      rw [hpieces] at hall
      simpa [String.toList_ofList] using hall
  · cases h

end Sections

end Descent
