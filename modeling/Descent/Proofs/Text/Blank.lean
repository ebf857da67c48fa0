import Mathlib.Data.List.DropRight
import Descent.Text.Blank

/-!
# Trimming and words

A text is its trimmed part with blanks around it (`exists_eq_append_trim`), and
blanks around a text do not change what is left when it is trimmed
(`trim_surround`). The two say all there is to say: trimming twice is trimming
once (`trim_trim`), and what stands next to blanks may be trimmed early.

Words are read back from a text in which they stand with a blank between them
(`words_intercalate`), and whatever is a word holds no blank
(`solid_of_mem_words`).
-/

namespace Descent.Text

variable {s a b : List Char} {c : Char}

/-- Every character is blank. -/
def Blank (s : List Char) : Prop := ∀ c ∈ s, isBlank c = true

/-- No character is blank. -/
def Solid (s : List Char) : Prop := ∀ c ∈ s, isBlank c = false

-- Not by inference, which may go through all characters there are.
instance : Decidable (Blank s) := List.decidableBAll (isBlank · = true) s

instance : Decidable (Solid s) := List.decidableBAll (isBlank · = false) s

/-! ## The ends of a text -/

theorem trimStart_append_left (ha : Blank a) :
    trimStart (a ++ s) = trimStart s := List.dropWhile_append_of_pos ha

theorem trimStart_eq_self_iff :
    trimStart s = s ↔ ∀ c ∈ s.head?, isBlank c = false := by
  cases s with
  | nil => simp [trimStart]
  | cons c s =>
      rw [trimStart, List.dropWhile_eq_self_iff]
      simp

theorem trimStart_cons (hc : isBlank c = false) : trimStart (c :: s) = c :: s :=
  List.dropWhile_cons_of_neg (by rw [hc]; exact Bool.false_ne_true)

/-- Blanks are dropped up to the first character that is none. -/
theorem trimStart_append_solid (hs : Solid s) (hne : s ≠ []) :
    trimStart (a ++ (s ++ b)) = trimStart a ++ (s ++ b) := by
  obtain ⟨c, s, rfl⟩ := List.exists_cons_of_ne_nil hne
  have hc : isBlank c = false := hs c List.mem_cons_self
  rw [trimStart, trimStart, List.dropWhile_append]
  split
  · next hnil =>
      rw [List.isEmpty_iff.mp hnil, List.cons_append]
      exact trimStart_cons hc
  · rfl

theorem trimEnd_eq_reverse : trimEnd s = (trimStart s.reverse).reverse := rfl

theorem trimEnd_append_right (hb : Blank b) : trimEnd (s ++ b) = trimEnd s := by
  rw [trimEnd_eq_reverse, List.reverse_append, trimStart_append_left]
  · rfl
  · exact fun c hc => hb c (List.mem_reverse.mp hc)

theorem trimEnd_append_solid (hs : Solid s) (hne : s ≠ []) :
    trimEnd (a ++ (s ++ b)) = a ++ (s ++ trimEnd b) := by
  have hsolid : Solid s.reverse := fun c hc => hs c (List.mem_reverse.mp hc)
  rw [trimEnd_eq_reverse, ← List.append_assoc, List.reverse_append,
    List.reverse_append, trimStart_append_solid hsolid (by simpa using hne),
    List.reverse_append, List.reverse_append, List.reverse_reverse,
    List.reverse_reverse, ← trimEnd_eq_reverse, List.append_assoc]

theorem exists_eq_append_trimStart (s : List Char) :
    ∃ front, Blank front ∧ s = front ++ trimStart s :=
  ⟨s.takeWhile isBlank, fun _ hc => List.mem_takeWhile_imp hc,
    List.takeWhile_append_dropWhile.symm⟩

theorem exists_eq_trimEnd_append (s : List Char) :
    ∃ back, Blank back ∧ s = trimEnd s ++ back := by
  obtain ⟨front, hfront, heq⟩ := exists_eq_append_trimStart s.reverse
  refine ⟨front.reverse, fun c hc => hfront c (List.mem_reverse.mp hc), ?_⟩
  rw [trimEnd_eq_reverse, ← List.reverse_append, ← heq, List.reverse_reverse]

theorem trimStart_append_of_ne_nil (h : trimStart a ≠ []) :
    trimStart (a ++ b) = trimStart a ++ b := by
  rw [trimStart, List.dropWhile_append, if_neg]
  · rfl
  · exact fun hnil => h (List.isEmpty_iff.mp hnil)

theorem blank_of_trimStart_eq_nil (h : trimStart s = []) : Blank s :=
  List.dropWhile_eq_nil_iff.mp h

theorem trimStart_of_blank (hs : Blank s) : trimStart s = [] :=
  List.dropWhile_eq_nil_iff.mpr hs

/-! ## Trimming -/

/-- Around what is left when a text is trimmed there are only blanks. -/
theorem exists_eq_append_trim (s : List Char) :
    ∃ front back, Blank front ∧ Blank back ∧ s = front ++ (trim s ++ back) := by
  obtain ⟨front, hfront, heq⟩ := exists_eq_append_trimStart s
  obtain ⟨back, hback, heq'⟩ := exists_eq_trimEnd_append (trimStart s)
  exact ⟨front, back, hfront, hback, heq.trans (congrArg (front ++ ·) heq')⟩

/-- Blanks around a text do not matter. -/
theorem trim_surround (ha : Blank a) (hb : Blank b) :
    trim (a ++ (s ++ b)) = trim s := by
  rw [trim, trimStart_append_left ha, trimStart, List.dropWhile_append]
  split
  · next hnil =>
      have hs : trimStart s = [] := List.isEmpty_iff.mp hnil
      rw [trim, hs, show b.dropWhile isBlank = [] from trimStart_of_blank hb]
  · exact trimEnd_append_right hb

theorem trim_append_left (ha : Blank a) : trim (a ++ s) = trim s := by
  have h := trim_surround (s := s) (b := []) ha fun _ hc =>
    absurd hc List.not_mem_nil
  rwa [List.append_nil] at h

theorem trim_append_right (hb : Blank b) : trim (s ++ b) = trim s :=
  trim_surround (a := []) (fun _ hc => absurd hc List.not_mem_nil) hb

theorem trim_trim (s : List Char) : trim (trim s) = trim s := by
  obtain ⟨front, back, hfront, hback, heq⟩ := exists_eq_append_trim s
  rw [← trim_surround hfront hback, ← heq]

theorem trim_isInfix (s : List Char) : trim s <:+: s := by
  obtain ⟨front, back, -, -, heq⟩ := exists_eq_append_trim s
  exact ⟨front, back, by rw [List.append_assoc, ← heq]⟩

/-- Around characters that are no blanks only the outer ends are trimmed. -/
theorem trim_append_solid (hs : Solid s) (hne : s ≠ []) :
    trim (a ++ (s ++ b)) = trimStart a ++ (s ++ trimEnd b) := by
  rw [trim, trimStart_append_solid hs hne, trimEnd_append_solid hs hne]

theorem trim_append_solid_ne_nil (hs : Solid s) (hne : s ≠ []) :
    trim (a ++ (s ++ b)) ≠ [] := by
  rw [trim_append_solid hs hne]
  simp [hne]

theorem trimStart_of_trim (h : trim s = s) : trimStart s = s := by
  obtain ⟨back, -, heq⟩ := exists_eq_trimEnd_append (trimStart s)
  have hlength := congrArg List.length heq
  rw [show trimEnd (trimStart s) = s from h, List.length_append] at hlength
  refine (List.dropWhile_suffix isBlank).eq_of_length_le ?_
  show s.length ≤ (trimStart s).length
  omega

/-- The beginning of a trimmed text has no blanks in front. -/
theorem trim_isPrefix (h : trim s = s) (ha : a <+: s) : trim a <+: s := by
  have hstart : trimStart a = a := by
    refine trimStart_eq_self_iff.mpr fun c hc => ?_
    refine trimStart_eq_self_iff.mp (trimStart_of_trim h) c ?_
    obtain ⟨b, rfl⟩ := ha
    cases a with
    | nil => cases hc
    | cons d a => exact hc
  have hend := List.rdropWhile_prefix isBlank a
  rw [trim, hstart]
  exact hend.trans ha

/-! ## Words -/

theorem words_of_blank (hs : Blank s) : words s = [] := by
  induction s with
  | nil => rfl
  | cons c s ih =>
      have hrest := ih fun d hd => hs d (List.mem_cons_of_mem c hd)
      have hc := hs c List.mem_cons_self
      rw [words, List.splitOnP_cons_eq_if_modifyHead, if_pos hc]
      exact hrest

/-- A blank between two texts separates their words. -/
theorem words_append_cons (hc : isBlank c = true) :
    words (a ++ c :: b) = words a ++ words b := by
  rw [words, List.splitOnP_append_cons a b hc, List.filter_append]
  rfl

theorem words_of_solid (hs : Solid s) (hne : s ≠ []) : words s = [s] := by
  rw [words, List.splitOnP_eq_singleton hs]
  exact List.filter_cons_of_pos (by simpa using hne)

theorem words_append_right (hb : Blank b) : words (s ++ b) = words s := by
  cases b with
  | nil => rw [List.append_nil]
  | cons c b =>
      rw [words_append_cons (hb c List.mem_cons_self),
        words_of_blank fun d hd => hb d (List.mem_cons_of_mem c hd),
        List.append_nil]

theorem words_append_left (ha : Blank a) : words (a ++ s) = words s := by
  induction a with
  | nil => rfl
  | cons c a ih =>
      have hsplit := words_append_cons (a := []) (b := a ++ s)
        (ha c List.mem_cons_self)
      rw [List.nil_append, words_of_blank fun _ hd => absurd hd List.not_mem_nil,
        List.nil_append] at hsplit
      exact hsplit.trans (ih fun d hd => ha d (List.mem_cons_of_mem c hd))

/-- Any blanks between two texts separate their words, as long as there are some. -/
theorem words_append_blank {blanks : List Char} (h : Blank blanks)
    (hne : blanks ≠ []) : words (a ++ (blanks ++ b)) = words a ++ words b := by
  obtain ⟨c, blanks, rfl⟩ := List.exists_cons_of_ne_nil hne
  have hrest : Blank blanks := fun d hd => h d (List.mem_cons_of_mem c hd)
  rw [List.cons_append, words_append_cons (h c List.mem_cons_self),
    words_append_left hrest]

theorem words_trim (s : List Char) : words (trim s) = words s := by
  obtain ⟨front, back, hfront, hback, heq⟩ := exists_eq_append_trim s
  conv_rhs => rw [heq]
  rw [words_append_left hfront, words_append_right hback]

/-- Words with a blank between them are read back. -/
theorem words_intercalate {texts : List (List Char)}
    (h : ∀ text ∈ texts, Solid text ∧ text ≠ []) :
    words ([' '].intercalate texts) = texts := by
  induction texts with
  | nil => rfl
  | cons text texts ih =>
      obtain ⟨hsolid, hne⟩ := h text List.mem_cons_self
      have hrest := ih fun other hother =>
        h other (List.mem_cons_of_mem _ hother)
      cases texts with
      | nil => rw [List.intercalate_singleton, words_of_solid hsolid hne]
      | cons other texts =>
          rw [List.intercalate_cons_cons, List.append_assoc,
            List.singleton_append, words_append_cons (by decide),
            words_of_solid hsolid hne, hrest]
          rfl

/-- The parts of a list hold nothing that it is split at and lie in the list. -/
theorem of_mem_splitOnP {α : Type} {p : α → Bool} {xs part : List α}
    (h : part ∈ xs.splitOnP p) : (∀ x ∈ part, p x = false) ∧ part <:+: xs := by
  -- The induction takes off the first part, up to the first hit.
  induction hn : xs.length using Nat.strong_induction_on generalizing xs with
  | h n ih =>
      cases hfind : xs.find? p with
      | none =>
          have hall : ∀ x ∈ xs, p x = false := by
            simpa using List.find?_eq_none.mp hfind
          rw [List.splitOnP_eq_singleton hall, List.mem_singleton] at h
          subst h
          exact ⟨hall, List.infix_rfl⟩
      | some c =>
          obtain ⟨hc, a, b, rfl, ha⟩ := List.find?_eq_some_iff_append.mp hfind
          have ha : ∀ x ∈ a, p x = false := by simpa using ha
          rw [List.splitOnP_append_cons_of_forall_mem ha c hc] at h
          rcases List.mem_cons.mp h with rfl | h
          · exact ⟨ha, List.infix_append_left⟩
          · have hlt : b.length < n := by
              rw [← hn, List.length_append, List.length_cons]
              omega
            obtain ⟨hfree, hwithin⟩ := ih b.length hlt h rfl
            exact ⟨hfree, hwithin.trans
              ((List.suffix_cons c b).isInfix.trans List.infix_append_right)⟩

/-- A word holds no blank, is not empty and lies in the text. -/
theorem solid_of_mem_words {word : List Char} (h : word ∈ words s) :
    Solid word ∧ word ≠ [] ∧ word <:+: s := by
  obtain ⟨hpart, hne⟩ := List.mem_filter.mp h
  obtain ⟨hsolid, hwithin⟩ := of_mem_splitOnP hpart
  exact ⟨hsolid, by simpa using hne, hwithin⟩

end Descent.Text
