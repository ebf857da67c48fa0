/-!
# Ranges of code points

A class of characters is written down as closed ranges of code points that rise
and do not touch. `inRanges` stops at the first range that begins too late, and
`inRanges_iff` says that it misses nothing by that, as long as the ranges rise.
-/

namespace Descent.Text

/-- Whether a number lies in one of some rising ranges. -/
def inRanges : List (Nat × Nat) → Nat → Bool
  | [], _ => false
  | (first, last) :: rest, n => first ≤ n && (n ≤ last || inRanges rest n)

/-- Every range has a first number, and there is a gap before the next one. -/
def rising : List (Nat × Nat) → Bool
  | [] => true
  | [range] => range.1 ≤ range.2
  | range :: next :: rest =>
    range.1 ≤ range.2 && range.2 + 1 < next.1 && rising (next :: rest)

/-- What follows a rising list's first range rises as well. -/
theorem rising_tail {range : Nat × Nat} {rest : List (Nat × Nat)}
    (h : rising (range :: rest) = true) : rising rest = true := by
  cases rest with
  | nil => rfl
  | cons next rest =>
    simp only [rising, Bool.and_eq_true] at h
    exact h.2

/-- The first range begins before all others. -/
theorem first_le_of_rising {range other : Nat × Nat} {rest : List (Nat × Nat)}
    (h : rising (range :: rest) = true) (hmem : other ∈ rest) : range.1 ≤ other.1 := by
  induction rest generalizing range with
  | nil => cases hmem
  | cons next rest ih =>
    have htail := rising_tail h
    simp only [rising, Bool.and_eq_true, decide_eq_true_eq] at h
    rcases List.mem_cons.mp hmem with rfl | hmem
    · omega
    · have := ih htail hmem
      omega

/-- The search finds a number exactly when one of the ranges holds it. -/
theorem inRanges_iff {ranges : List (Nat × Nat)} (h : rising ranges = true) (n : Nat) :
    inRanges ranges n = true ↔ ∃ range ∈ ranges, range.1 ≤ n ∧ n ≤ range.2 := by
  induction ranges with
  | nil => simp [inRanges]
  | cons range rest ih =>
    have ih := ih (rising_tail h)
    simp only [inRanges, Bool.and_eq_true, Bool.or_eq_true, decide_eq_true_eq, ih,
      List.mem_cons, exists_eq_or_imp]
    constructor
    · rintro ⟨hfirst, hlast | hrest⟩
      · exact .inl ⟨hfirst, hlast⟩
      · exact .inr hrest
    · rintro (⟨hfirst, hlast⟩ | ⟨other, hmem, hother, hlast⟩)
      · exact ⟨hfirst, .inl hlast⟩
      · have := first_le_of_rising h hmem
        exact ⟨by omega, .inr ⟨other, hmem, hother, hlast⟩⟩

end Descent.Text
