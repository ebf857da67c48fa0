import Descent.CommandLine.Path
import Descent.Proofs.Text.Blank

/-!
# Paths and their pieces

A path and its pieces determine each other (`ofPieces_pieces`, `pieces_ofPieces`).
What the command line does to a path happens at its last piece: a backup has a
longer name in the same directory (`backup_ofPieces`), and so has the path with
another extension, unless its name begins with two periods (`withExtension_cases`).
-/

namespace Descent.Path

variable {path name extension : String} {parents ps : List String}

/-- A piece that is neither empty nor a period nor two, and that has no slash. -/
structure IsName (name : String) : Prop where
  moves : stays name = false
  ne_up : name ≠ ".."
  noSlash : '/' ∉ name.toList

theorem IsName.ne_empty (hname : IsName name) : name ≠ "" := by
  rintro rfl
  cases hname.moves

/-! ## Pieces -/

theorem not_mem_of_mem_pieces {piece : String} (h : piece ∈ pieces path) :
    '/' ∉ piece.toList := by
  obtain ⟨cs, hcs, rfl⟩ := List.mem_map.mp h
  rw [String.toList_ofList]
  intro hslash
  have hfree := (Text.of_mem_splitOnP hcs).1 '/' hslash
  cases hfree

theorem pieces_ne_nil : pieces path ≠ [] := fun h =>
  List.splitOnP_ne_nil _ _ (List.map_eq_nil_iff.mp h)

theorem ofPieces_pieces (path : String) : ofPieces (pieces path) = path := by
  refine String.toList_injective ?_
  rw [ofPieces, String.toList_intercalate, pieces, List.map_map]
  have hid : String.toList ∘ String.ofList = id := funext fun _ => String.toList_ofList
  rw [hid, List.map_id]
  exact List.intercalate_splitOn '/'

theorem pieces_ofPieces (hne : ps ≠ []) (hclean : ∀ p ∈ ps, '/' ∉ p.toList) :
    pieces (ofPieces ps) = ps := by
  have hsplit : ("/".intercalate ps).toList.splitOnP (· == '/') =
      ps.map String.toList := by
    rw [String.toList_intercalate]
    refine List.splitOn_intercalate '/' (fun l hl => ?_) (by simpa using hne)
    obtain ⟨p, hp, rfl⟩ := List.mem_map.mp hl
    exact hclean p hp
  rw [pieces, ofPieces, hsplit, List.map_map]
  have hid : String.ofList ∘ String.toList = id := funext fun _ => String.ofList_toList
  rw [hid, List.map_id]

theorem exists_pieces_eq_concat (path : String) :
    ∃ parents last, pieces path = parents ++ [last] :=
  ⟨_, _, (List.dropLast_append_getLast pieces_ne_nil).symm⟩

/-- Only the last piece of a path is not followed by a slash. -/
theorem toList_ofPieces_concat :
    (ofPieces (parents ++ [name])).toList =
      (parents.flatMap fun p => p.toList ++ ['/']) ++ name.toList := by
  rw [ofPieces, String.toList_intercalate]
  induction parents with
  | nil => simp
  | cons p parents ih =>
      cases parents with
      | nil => simp [List.intercalate_cons_cons]
      | cons q parents =>
          rw [List.cons_append, List.cons_append, List.map_cons, List.map_cons,
            List.intercalate_cons_cons, ← List.map_cons, ← List.cons_append, ih]
          simp

theorem ofPieces_concat_append (extra : String) :
    ofPieces (parents ++ [name]) ++ extra = ofPieces (parents ++ [name ++ extra]) := by
  refine String.toList_injective ?_
  rw [String.toList_append, toList_ofPieces_concat, toList_ofPieces_concat,
    String.toList_append, List.append_assoc]

/-- Another name may stand in the place of the last piece. -/
theorem pieces_sibling {other : String} (h : pieces path = parents ++ [name])
    (hother : '/' ∉ other.toList) :
    pieces (ofPieces (parents ++ [other])) = parents ++ [other] := by
  refine pieces_ofPieces (by simp) fun p hp => ?_
  rcases List.mem_append.mp hp with hp | hp
  · exact not_mem_of_mem_pieces (h ▸ List.mem_append_left _ hp)
  · exact List.mem_singleton.mp hp ▸ hother

/-- The last piece of a path is all that an addition changes. -/
theorem pieces_append {extra : String} (h : pieces path = parents ++ [name])
    (hextra : '/' ∉ extra.toList) :
    pieces (path ++ extra) = parents ++ [name ++ extra] := by
  have hmem : name ∈ pieces path := by simp [h]
  have hname := not_mem_of_mem_pieces hmem
  have hpath : path ++ extra = ofPieces (parents ++ [name ++ extra]) := by
    rw [← ofPieces_concat_append, ← h, ofPieces_pieces]
  rw [hpath]
  exact pieces_sibling h (by simp [hname, hextra])

theorem pieces_backup (h : pieces path = parents ++ [name]) :
    pieces (backup path) = parents ++ [name ++ ".bak"] :=
  pieces_append h (by decide)

/-! ## Stems -/

/-- A name is its own stem, or its stem with an extension. -/
theorem stem_eq_or (name : String) : stem name = name ∨
    stem name ≠ "" ∧ ∃ extension, name = stem name ++ "." ++ extension := by
  unfold stem
  split
  · next c rest hdrop =>
      refine Or.inr ⟨by simp, .ofList
        (name.toList.reverse.takeWhile (· != '.')).reverse, ?_⟩
      have hall := congrArg List.reverse
        (List.takeWhile_append_dropWhile (p := (· != '.')) (l := name.toList.reverse))
      rw [hdrop, List.reverse_reverse] at hall
      refine String.toList_injective ?_
      simpa using hall.symm
  · exact Or.inl rfl

theorem IsName.noSlash_stem (hname : IsName name) : '/' ∉ (stem name).toList := by
  rcases stem_eq_or name with hstem | ⟨-, old, hold⟩
  · rw [hstem]
    exact hname.noSlash
  · have htext := congrArg String.toList hold
    have hnot := hname.noSlash
    rw [htext, String.toList_append, String.toList_append, List.append_assoc] at hnot
    exact fun hmem => hnot (List.mem_append_left _ hmem)

theorem append_dot_inj {s s' : String} (h : s ++ "." = s' ++ ".") : s = s' := by
  refine String.toList_injective ?_
  simpa using congrArg String.toList h

theorem stem_append_dot {s : String} (h : s ≠ "") : stem (s ++ ".") = s := by
  obtain ⟨c, rest, hrev⟩ : ∃ c rest, s.toList.reverse = c :: rest := by
    refine List.exists_cons_of_ne_nil fun hnil => h ?_
    exact String.toList_injective (List.reverse_eq_nil_iff.mp hnil)
  have hdot : (s ++ ".").toList.reverse = '.' :: c :: rest := by
    simp [hrev]
  rw [stem, hdot, List.dropWhile_cons_of_neg (by simp)]
  show String.ofList (c :: rest).reverse = s
  rw [← hrev, List.reverse_reverse, String.ofList_toList]

/-! ## Last names -/

theorem lastName?_eq_some (h : pieces path = parents ++ [name])
    (hname : IsName name) : lastName? path = some (parents, name) := by
  rw [lastName?, h, List.reverse_append, List.reverse_singleton,
    List.singleton_append, List.dropWhile_cons_of_neg (by simp [hname.moves])]
  simp [hname.ne_up]

theorem lastName?_eq_none (h : pieces path = parents ++ [".."]) :
    lastName? path = none := by
  rw [lastName?, h, List.reverse_append, List.reverse_singleton,
    List.singleton_append, List.dropWhile_cons_of_neg (by decide)]
  simp

theorem dropExtension_eq (h : pieces path = parents ++ [name])
    (hname : IsName name) (hstem : stem name = name) : dropExtension path = path := by
  simp [dropExtension, lastName?_eq_some h hname, extensionLength, hstem,
    ← String.length_toList]

theorem dropExtension_eq_ofPieces (h : pieces path = parents ++ [name])
    (hname : IsName name) (hsome : name = stem name ++ "." ++ extension) :
    dropExtension path = ofPieces (parents ++ [stem name ++ "."]) := by
  have hlength : extensionLength name = extension.toList.length := by
    have hcount := congrArg String.length hsome
    simp only [String.length_append] at hcount
    rw [extensionLength, String.length_toList, hcount]
    show _ + 1 + _ - _ - 1 = _
    omega
  have hpath : path.toList =
      (ofPieces (parents ++ [stem name ++ "."])).toList ++ extension.toList := by
    rw [← String.toList_append, ofPieces_concat_append, ← hsome, ← h,
      ofPieces_pieces]
  simp [dropExtension, lastName?_eq_some h hname, hlength, hpath,
    ← String.length_toList]

theorem addExtension_eq (h : pieces path = parents ++ [name])
    (hname : IsName name) (extension : String) :
    addExtension path extension =
      ofPieces (parents ++ [stem name ++ "." ++ extension]) := by
  rw [addExtension, lastName?_eq_some h hname]

/-- Another extension goes behind the stem of the last name. Where the stem is a
single period, none of the name is left but two periods. -/
theorem withExtension_cases (h : pieces path = parents ++ [name])
    (hname : IsName name) (extension : String) :
    withExtension path extension =
        ofPieces (parents ++ [stem name ++ "." ++ extension]) ∨
      withExtension path extension = ofPieces (parents ++ [".."]) := by
  unfold withExtension
  rcases stem_eq_or name with hstem | ⟨hne, old, hold⟩
  · rw [dropExtension_eq h hname hstem]
    exact Or.inl (addExtension_eq h hname extension)
  · rw [dropExtension_eq_ofPieces h hname hold]
    have hslash : '/' ∉ (stem name ++ ".").toList := by
      simp [hname.noSlash_stem]
    have hpieces := pieces_sibling h hslash
    -- What is left still ends in the old period. That is a name again, and has the
    -- same stem, unless the stem is a period itself.
    by_cases hdot : stem name = "."
    · rw [hdot] at hpieces ⊢
      rw [addExtension, lastName?_eq_none hpieces]
      exact Or.inr rfl
    · refine Or.inl ?_
      have hname' : IsName (stem name ++ ".") := {
        moves := by
          have hone : stem name ++ "." ≠ "" ++ "." := fun heq =>
            hne (append_dot_inj heq)
          simpa [stays] using hone
        ne_up := fun heq => hdot (append_dot_inj heq)
        noSlash := hslash }
      rw [addExtension_eq hpieces hname', stem_append_dot hne]

end Descent.Path
