import Mathlib.Data.List.Infix
import Descent.Text.Cut

/-!
# What a cut says

A text is cut where the separator occurs first (`cut?_append`, `eq_of_cut?`): it
is what stands before, the separator and what stands behind, and no occurrence
starts earlier. That is said of the part before together with all but the last
character of the separator, since an earlier occurrence could reach that far.

Where a text does not contain the separator there is no cut
(`cut?_eq_none_iff`).
-/

namespace Descent.Text

variable {separator s a b : List Char} {c : Char}

theorem cut?_eq_none_iff (hsep : separator ≠ []) :
    cut? separator s = none ↔ ¬ separator <:+: s := by
  induction s with
  | nil => exact iff_of_true rfl fun h => hsep (List.infix_nil.mp h)
  | cons c s ih =>
      rw [cut?, List.infix_cons_iff, ← List.isPrefixOf_iff_prefix]
      split
      · next hstarts => exact iff_of_false (by simp) fun h => h (Or.inl hstarts)
      · next hstarts => rw [Option.map_eq_none_iff, ih, or_iff_right hstarts]

theorem append_dropLast_isPrefix :
    a ++ separator.dropLast <+: a ++ (separator ++ b) := by
  have hdrop := List.dropLast_prefix separator
  exact (List.prefix_append_right_inj a).mpr
    (hdrop.trans (List.prefix_append separator b))

/-- An occurrence that starts before the first one would lie in what stands
before it and all but the last character of the separator. -/
theorem isPrefix_of_isPrefix_append (hsep : separator ≠ [])
    (h : separator <+: (c :: a) ++ (separator ++ b)) :
    separator <+: (c :: a) ++ separator.dropLast := by
  refine List.prefix_of_prefix_length_le h append_dropLast_isPrefix ?_
  have hpos := List.length_pos_iff.mpr hsep
  rw [List.length_append, List.length_cons, List.length_dropLast]
  omega

/-- A text is cut at the first occurrence of the separator. -/
theorem cut?_append (hsep : separator ≠ [])
    (hfirst : ¬ separator <:+: a ++ separator.dropLast) :
    cut? separator (a ++ (separator ++ b)) = some (a, b) := by
  induction a with
  | nil =>
      cases separator with
      | nil => exact absurd rfl hsep
      | cons c separator =>
          have hstarts : (c :: separator).isPrefixOf (c :: separator ++ b) :=
            List.isPrefixOf_iff_prefix.mpr (List.prefix_append _ _)
          rw [List.nil_append, List.cons_append, cut?]
          rw [List.cons_append] at hstarts
          rw [if_pos hstarts, ← List.cons_append, List.drop_left]
  | cons c a ih =>
      rw [List.cons_append, List.infix_cons_iff, not_or] at hfirst
      have hnot : ¬ separator.isPrefixOf (c :: (a ++ (separator ++ b))) = true :=
        fun h => hfirst.1
          (isPrefix_of_isPrefix_append hsep (List.isPrefixOf_iff_prefix.mp h))
      rw [List.cons_append, cut?, if_neg hnot, ih hfirst.2]
      rfl

/-- What a cut says of the text. -/
theorem eq_of_cut? (hsep : separator ≠ [])
    (h : cut? separator s = some (a, b)) :
    s = a ++ (separator ++ b) ∧ ¬ separator <:+: a ++ separator.dropLast := by
  induction s generalizing a with
  | nil => cases h
  | cons c s ih =>
      rw [cut?] at h
      split at h
      · next hstarts =>
          obtain ⟨rest, hrest⟩ := List.isPrefixOf_iff_prefix.mp hstarts
          rw [← hrest, List.drop_left, Option.some.injEq, Prod.mk.injEq] at h
          obtain ⟨rfl, rfl⟩ := h
          refine ⟨hrest.symm, fun hwithin => ?_⟩
          have hlength := hwithin.length_le
          have hpos := List.length_pos_iff.mpr hsep
          rw [List.nil_append, List.length_dropLast] at hlength
          omega
      · next hstarts =>
          obtain ⟨⟨a', b'⟩, hcut, heq⟩ := Option.map_eq_some_iff.mp h
          obtain ⟨rfl, rfl⟩ := Prod.mk.inj heq
          obtain ⟨rfl, hfirst⟩ := ih hcut
          refine ⟨rfl, fun hwithin => ?_⟩
          rw [List.cons_append, List.infix_cons_iff] at hwithin
          refine hwithin.elim (fun hfront => hstarts ?_) hfirst
          refine List.isPrefixOf_iff_prefix.mpr (hfront.trans ?_)
          rw [← List.cons_append, ← List.cons_append]
          exact append_dropLast_isPrefix

/-! ## The part before -/

theorem before_eq_self (hsep : separator ≠ []) (h : ¬ separator <:+: s) :
    before separator s = s := by
  rw [before, (cut?_eq_none_iff hsep).mpr h]

theorem before_isPrefix (hsep : separator ≠ []) (s : List Char) :
    before separator s <+: s := by
  unfold before
  split
  · next parts hcut =>
      rw [(eq_of_cut? hsep hcut).1]
      exact List.prefix_append _ _
  · exact List.prefix_refl s

/-- What stands before the first occurrence does not hold another one. -/
theorem not_infix_before (hsep : separator ≠ []) (s : List Char) :
    ¬ separator <:+: before separator s := by
  unfold before
  split
  · next parts hcut =>
      exact fun h => (eq_of_cut? hsep hcut).2 (h.trans List.infix_append_left)
  · next hcut => exact (cut?_eq_none_iff hsep).mp hcut

theorem before_singleton_cons (c d : Char) (s : List Char) :
    before [c] (d :: s) = if c = d then [] else d :: before [c] s := by
  have hstarts : [c].isPrefixOf (d :: s) = true ↔ c = d := by simp
  rw [before, cut?]
  by_cases h : c = d
  · rw [if_pos (hstarts.mpr h), if_pos h]
  · rw [if_neg (mt hstarts.mp h), if_neg h, before]
    cases cut? [c] s with
    | none => rfl
    | some parts => rfl

/-- Behind the first occurrence of a character nothing counts. -/
theorem before_append_of_mem (h : c ∈ a) : before [c] (a ++ b) = before [c] a := by
  induction a with
  | nil => cases h
  | cons d a ih =>
      rw [List.cons_append, before_singleton_cons, before_singleton_cons]
      split
      · rfl
      · next hne => rw [ih ((List.mem_cons.mp h).resolve_left hne)]

theorem before_append_of_not_mem (h : c ∉ a) :
    before [c] (a ++ b) = a ++ before [c] b := by
  induction a with
  | nil => rfl
  | cons d a ih =>
      rw [List.mem_cons, not_or] at h
      rw [List.cons_append, before_singleton_cons, if_neg h.1, ih h.2,
        List.cons_append]

/-! ## Texts put together

A blank between two texts keeps a separator without blanks from arising where
they meet. -/

/-- A separator that does not hold the character between two texts lies in one
of them. -/
theorem infix_append_cons_iff (hc : c ∉ separator) :
    separator <:+: a ++ c :: b ↔ separator <:+: a ∨ separator <:+: b := by
  refine ⟨fun h => ?_, fun h => ?_⟩
  · rcases List.infix_append_iff.mp h with
      h | h | ⟨front, back, rfl, hfront, hback⟩
    · exact Or.inl h
    · rcases List.infix_cons_iff.mp h with h | h
      · cases separator with
        | nil => exact Or.inl List.nil_infix
        | cons d separator =>
            rw [List.cons_prefix_cons] at h
            exact absurd (h.1 ▸ List.mem_cons_self) hc
      · exact Or.inr h
    · cases back with
      | nil =>
          rw [List.append_nil]
          exact Or.inl hfront.isInfix
      | cons d back =>
          rw [List.cons_prefix_cons] at hback
          have hin : c ∈ d :: back := hback.1 ▸ List.mem_cons_self
          exact absurd (List.mem_append_right _ hin) hc
  · rcases h with h | h
    · exact h.trans List.infix_append_left
    · have hb : b <:+: c :: b := (List.suffix_cons c b).isInfix
      exact h.trans (hb.trans List.infix_append_right)

/-- In front of the first place where a character occurs stands one text only. -/
theorem eq_or_exists_of_cut {a b s t : List Char} {c : Char} (ha : c ∉ a)
    (h : a ++ c :: s = b ++ c :: t) :
    a = b ∧ s = t ∨ ∃ rest, b = a ++ c :: rest ∧ s = rest ++ c :: t := by
  rcases List.append_eq_append_iff.mp h with ⟨rest, rfl, heq⟩ | ⟨rest, rfl, heq⟩
  · cases rest with
    | nil => exact Or.inl ⟨(List.append_nil a).symm, (List.cons.inj heq).2⟩
    | cons d rest =>
        obtain ⟨rfl, rfl⟩ := List.cons.inj heq
        exact Or.inr ⟨rest, rfl, rfl⟩
  · cases rest with
    | nil => exact Or.inl ⟨List.append_nil b, (List.cons.inj heq).2.symm⟩
    | cons d rest =>
        obtain ⟨rfl, -⟩ := List.cons.inj heq
        exact absurd (List.mem_append_right b List.mem_cons_self) ha

end Descent.Text
