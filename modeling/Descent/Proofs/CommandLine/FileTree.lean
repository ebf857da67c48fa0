import Descent.CommandLine.FileTree
import Descent.Proofs.CommandLine.Path
import Descent.Table.Lemmas

/-!
# What a write does to a tree of files

A write puts a file at one location, and only where no directory is
(`write_eq_ok`, `target_eq_ok_iff`). So directories stay directories, whatever a
path led to it still leads to (`resolve_put`), and a path can be written to if it
could be before (`target_put`). A path that leads somewhere new leads to the
written file, by the name of that file (`follow_put_cases`).
-/

namespace Descent.FileTree

open Descent.Path

variable {t t' : FileTree} {here there location place : Location}
  {path name : String} {parents ps qs : List String} {contents : ByteArray}

/-- The tree with a file put at a location. -/
def put (t : FileTree) (location : Location) (contents : ByteArray) : FileTree :=
  { t with nodes := t.nodes.insert location (.file contents) }

/-- A path leads to a file with certain contents. -/
def Holds (t : FileTree) (path : String) (contents : ByteArray) : Prop :=
  ∃ location, t.resolve path = .ok location ∧
    t.node? location = some (.file contents)

/-! ## Following pieces -/

/-- What one piece does in a directory. -/
inductive Step (t : FileTree) (here : Location) : String → Location → Prop
  | stay {piece : String} (h : stays piece = true) : Step t here piece here
  | up : Step t here ".." here.dropLast
  | name {name : String} (hname : stays name = false) (hup : name ≠ "..")
      (hfits : name.utf8ByteSize ≤ nameLimit)
      (hthere : t.node? (here ++ [name]) ≠ none) :
      Step t here name (here ++ [name])

theorem entry_eq_ok_iff {found : Option Node} :
    t.entry here name = .ok found ↔
      name.utf8ByteSize ≤ nameLimit ∧ t.node? (here ++ [name]) = found := by
  unfold entry
  split
  · next hfits => simp [hfits]
  · next hlong => simp [hlong]

theorem follow_cons_eq_ok_iff {piece : String} :
    t.follow here (piece :: ps) = .ok there ↔
      t.node? here = some .directory ∧
        ∃ next, Step t here piece next ∧ t.follow next ps = .ok there := by
  constructor
  · intro h
    rw [follow] at h
    split at h
    · cases h
    · cases h
    · next hdir =>
        refine ⟨hdir, ?_⟩
        split at h
        · next hstays => exact ⟨here, .stay hstays, h⟩
        · next hmoves =>
            split at h
            · next hup => exact ⟨_, hup ▸ .up, h⟩
            · next hup =>
                split at h
                · cases h
                · cases h
                · next hentry =>
                    obtain ⟨hfits, hnode⟩ := entry_eq_ok_iff.mp hentry
                    refine ⟨_, .name (by simpa using hmoves) hup hfits ?_, h⟩
                    simp [hnode]
  · rintro ⟨hdir, next, hstep, h⟩
    rw [follow, hdir]
    cases hstep with
    | stay hstays => simp [hstays, h]
    | up => simp [h, show stays ".." = false from rfl]
    | name hname hup hfits hthere =>
        obtain ⟨node, hnode⟩ := Option.ne_none_iff_exists'.mp hthere
        simp [hname, hup, entry, hfits, hnode, h]

theorem follow_append_eq_ok_iff :
    t.follow here (ps ++ qs) = .ok there ↔
      ∃ middle, t.follow here ps = .ok middle ∧ t.follow middle qs = .ok there := by
  induction ps generalizing here with
  | nil => simp [follow]
  | cons piece ps ih =>
      simp only [List.cons_append, follow_cons_eq_ok_iff, ih]
      constructor
      · rintro ⟨hdir, next, hstep, middle, hps, hqs⟩
        exact ⟨middle, ⟨hdir, next, hstep, hps⟩, hqs⟩
      · rintro ⟨middle, ⟨hdir, next, hstep, hps⟩, hqs⟩
        exact ⟨hdir, next, hstep, middle, hps, hqs⟩

/-- Where the pieces of a path begin, and those that are then followed. -/
def start (t : FileTree) (ps : List String) : Location × List String :=
  if ps.head? = some "" then ([], ps.tail) else (t.workingDirectory, ps)

theorem followPieces_eq (ps : List String) :
    t.followPieces ps = t.follow (t.start ps).1 (t.start ps).2 := by
  unfold followPieces start
  split
  · rfl
  · next hne =>
      rw [if_neg fun hhead => ?_]
      obtain ⟨rest, rfl⟩ := List.head?_eq_some_iff.mp hhead
      exact hne rest rfl

theorem start_concat (hname : name ≠ "") :
    t.start (parents ++ [name]) =
      ((t.start parents).1, (t.start parents).2 ++ [name]) := by
  cases parents with
  | nil => simp [start, hname]
  | cons p parents => by_cases hp : p = "" <;> simp [start, hp]

theorem exists_concat_of_start (h : (t.start ps).2 = parents ++ [name]) :
    ∃ front, ps = front ++ [name] := by
  unfold start at h
  split at h
  · next hhead =>
      obtain ⟨rest, rfl⟩ := List.head?_eq_some_iff.mp hhead
      exact ⟨"" :: parents, congrArg _ h⟩
  · exact ⟨parents, h⟩

theorem followPieces_concat_eq_ok_iff (hname : name ≠ "") :
    t.followPieces (parents ++ [name]) = .ok there ↔
      ∃ middle, t.followPieces parents = .ok middle ∧
        t.follow middle [name] = .ok there := by
  simp only [followPieces_eq, start_concat hname, follow_append_eq_ok_iff]

theorem directoryAt_eq_ok_iff :
    t.directoryAt ps = .ok there ↔
      t.followPieces ps = .ok there ∧ t.node? there = some .directory := by
  unfold directoryAt
  split
  · next hfollow => simp [hfollow]
  · next location hfollow =>
      split
      · next hdir =>
          rw [hfollow]
          constructor
          · intro h
            injection h with h
            exact ⟨congrArg _ h, h ▸ hdir⟩
          · intro h
            exact h.1
      · next hdir =>
          rw [hfollow]
          constructor
          · intro h
            cases h
          · rintro ⟨h, hthere⟩
            injection h with h
            exact absurd (h ▸ hthere) hdir

/-! ## Where a write goes -/

theorem ne_empty_of_pieces (h : pieces path = parents ++ [name])
    (hname : name ≠ "") : path ≠ "" := by
  rintro rfl
  rw [show pieces "" = [] ++ [""] from rfl] at h
  exact hname (List.append_inj_right' h rfl |> List.singleton_inj.mp).symm

theorem target_eq_ok_iff :
    t.target path = .ok location ↔
      path.utf8ByteSize ≤ limit ∧ ∃ parents name directory,
        pieces path = parents ++ [name] ∧ IsName name ∧
        t.directoryAt parents = .ok directory ∧ name.utf8ByteSize ≤ nameLimit ∧
        t.node? (directory ++ [name]) ≠ some .directory ∧
        location = directory ++ [name] := by
  constructor
  · intro h
    unfold target at h
    split at h
    · cases h
    split at h
    · cases h
    next hlimit =>
    split at h
    · cases h
    next name parents hdrop =>
    split at h
    · cases h
    next directory hdir =>
    split at h
    next hlast =>
      obtain ⟨hlast, hdot, hup⟩ := hlast
      obtain ⟨front, hpieces⟩ := List.getLast?_eq_some_iff.mp hlast
      have hne : name ≠ "" := by
        have hhead := List.head?_dropWhile_not (· == "") (pieces path).reverse
        rw [hdrop] at hhead
        simpa using hhead
      rw [hpieces, List.reverse_append, List.reverse_singleton,
        List.singleton_append, List.dropWhile_cons_of_neg (by simpa using hne),
        List.cons.injEq] at hdrop
      obtain ⟨-, rfl⟩ := hdrop
      rw [List.reverse_reverse] at hdir
      split at h
      · cases h
      · cases h
      next hnot hentry =>
        obtain ⟨hfits, hnode⟩ := entry_eq_ok_iff.mp hentry
        injection h with h
        refine ⟨by omega, front, name, directory, hpieces, ?_, hdir, hfits, ?_,
          h.symm⟩
        · have hmem : name ∈ pieces path := by simp [hpieces]
          exact ⟨by simp [stays, hne, hdot], hup, not_mem_of_mem_pieces hmem⟩
        · rintro hdirectory
          exact hnot (hnode.symm.trans hdirectory)
    · cases h
  · rintro ⟨hlimit, parents, name, directory, hpieces, hname, hdir, hfits, hnode,
      rfl⟩
    have hne := hname.ne_empty
    unfold target
    rw [if_neg (ne_empty_of_pieces hpieces hne), if_neg (by omega), hpieces,
      List.reverse_append, List.reverse_singleton, List.singleton_append,
      List.dropWhile_cons_of_neg (by simpa using hne)]
    simp only [List.reverse_reverse, hdir]
    have hlast : (parents ++ [name]).getLast? = some name ∧ name ≠ "." ∧
        name ≠ ".." := by
      refine ⟨List.getLast?_concat, ?_, hname.ne_up⟩
      rintro rfl
      cases hname.moves
    rw [if_pos hlast, entry_eq_ok_iff.mpr ⟨hfits, rfl⟩]
    split
    · next heq => cases heq
    · next heq =>
        injection heq with heq
        exact absurd heq hnode
    · rfl

theorem not_directory_of_target (h : t.target path = .ok location) :
    t.node? location ≠ some .directory := by
  obtain ⟨-, _, _, _, -, -, -, -, hnode, rfl⟩ := target_eq_ok_iff.mp h
  exact hnode

theorem ne_nil_of_target (h : t.target path = .ok location) : location ≠ [] := by
  obtain ⟨-, _, _, _, -, -, -, -, -, rfl⟩ := target_eq_ok_iff.mp h
  simp

/-- A path that can be written to leads to where the write goes, if anything is
there. -/
theorem locate_of_target (h : t.target path = .ok location) {node : Node}
    (hnode : t.node? location = some node) : t.locate path = .ok location := by
  obtain ⟨hlimit, parents, name, directory, hpieces, hname, hdir, hfits, -, rfl⟩ :=
    target_eq_ok_iff.mp h
  have hne := hname.ne_empty
  obtain ⟨hfollow, hdirectory⟩ := directoryAt_eq_ok_iff.mp hdir
  rw [locate, if_pos hlimit, resolve, if_neg (ne_empty_of_pieces hpieces hne), hpieces,
    followPieces_concat_eq_ok_iff hne]
  refine ⟨directory, hfollow, follow_cons_eq_ok_iff.mpr ⟨hdirectory, _, ?_, rfl⟩⟩
  exact .name hname.moves hname.ne_up hfits (by simp [hnode])

theorem write_eq_ok_iff :
    t.write path contents = .ok t' ↔
      ∃ location, t.target path = .ok location ∧ t' = t.put location contents := by
  unfold write
  cases t.target path with
  | error e => simp [Except.map]
  | ok location => simp [Except.map, put, eq_comm]

/-! ## Whether a path leads anywhere -/

theorem resolve_of_locate (h : t.locate path = .ok location) :
    path.utf8ByteSize ≤ limit ∧ t.resolve path = .ok location := by
  unfold locate at h
  split at h
  · next hlimit => exact ⟨hlimit, h⟩
  · cases h

theorem pathExists_iff :
    t.pathExists path = true ↔ ∃ location, t.locate path = .ok location := by
  unfold pathExists
  split
  · next location h => simp [h]
  · next h => simp [h]

/-! ## After a write -/

section Put

variable {written : String} (hwritten : t.target written = .ok location)

include hwritten

theorem node?_put : (t.put location contents).node? place =
    if place = location then some (.file contents) else t.node? place := by
  unfold node? put
  by_cases hplace : place = []
  · subst hplace
    simp [(ne_nil_of_target hwritten).symm]
  · simp only [hplace, if_false]
    exact Table.find?_insert

theorem node?_put_self :
    (t.put location contents).node? location = some (.file contents) := by
  rw [node?_put hwritten, if_pos rfl]

theorem node?_put_of_ne (hne : place ≠ location) :
    (t.put location contents).node? place = t.node? place := by
  rw [node?_put hwritten, if_neg hne]

theorem directory_put : (t.put location contents).node? place = some .directory ↔
    t.node? place = some .directory := by
  rw [node?_put hwritten]
  split
  · next heq =>
      subst heq
      simpa using not_directory_of_target hwritten
  · rfl

theorem follow_put (h : t.follow here ps = .ok there) :
    (t.put location contents).follow here ps = .ok there := by
  induction ps generalizing here with
  | nil => exact h
  | cons piece ps ih =>
      obtain ⟨hdir, next, hstep, hnext⟩ := follow_cons_eq_ok_iff.mp h
      refine follow_cons_eq_ok_iff.mpr
        ⟨(directory_put hwritten).mpr hdir, next, ?_, ih hnext⟩
      cases hstep with
      | stay hstays => exact .stay hstays
      | up => exact .up
      | name hname hup hfits hthere =>
          refine .name hname hup hfits ?_
          rw [node?_put hwritten]
          split
          · simp
          · exact hthere

/-- A path that leads somewhere after the write did so before, or it names the
file that was written. -/
theorem follow_put_cases (h : (t.put location contents).follow here ps = .ok there) :
    t.follow here ps = .ok there ∨ there = location ∧
      ∃ parents name directory, ps = parents ++ [name] ∧ stays name = false ∧
        name ≠ ".." ∧ t.follow here parents = .ok directory ∧
        location = directory ++ [name] := by
  induction ps generalizing here with
  | nil => exact Or.inl h
  | cons piece ps ih =>
      obtain ⟨hdir, next, hstep, hnext⟩ := follow_cons_eq_ok_iff.mp h
      rw [directory_put hwritten] at hdir
      -- The step was there before unless it goes to the file that was written.
      have hold : t.Step here piece next ∨ next = location ∧
          stays piece = false ∧ piece ≠ ".." ∧ next = here ++ [piece] := by
        cases hstep with
        | stay hstays => exact Or.inl (.stay hstays)
        | up => exact Or.inl .up
        | name hname hup hfits hthere =>
            by_cases heq : here ++ [piece] = location
            · exact Or.inr ⟨heq, hname, hup, rfl⟩
            · rw [node?_put_of_ne hwritten heq] at hthere
              exact Or.inl (.name hname hup hfits hthere)
      rcases hold with hstep | ⟨rfl, hname, hup, hlast⟩
      · rcases ih hnext with hnext | ⟨hthere, parents, name, directory, rfl, hname,
          hup, hparents, hlast⟩
        · exact Or.inl (follow_cons_eq_ok_iff.mpr ⟨hdir, next, hstep, hnext⟩)
        · exact Or.inr ⟨hthere, piece :: parents, name, directory, rfl, hname, hup,
            follow_cons_eq_ok_iff.mpr ⟨hdir, next, hstep, hparents⟩, hlast⟩
      · cases ps with
        | nil =>
            injection hnext with hnext
            exact Or.inr ⟨hnext.symm, [], piece, here, rfl, hname, hup, rfl, hlast⟩
        | cons other ps =>
            -- The written file is not a directory: nothing leads on from it.
            have hfile := (follow_cons_eq_ok_iff.mp hnext).1
            rw [directory_put hwritten] at hfile
            exact absurd hfile (not_directory_of_target hwritten)

theorem followPieces_put (h : t.followPieces ps = .ok there) :
    (t.put location contents).followPieces ps = .ok there := by
  rw [followPieces_eq] at h ⊢
  exact follow_put hwritten h

theorem resolve_put (h : t.resolve path = .ok there) :
    (t.put location contents).resolve path = .ok there := by
  unfold resolve at h ⊢
  split at h
  · cases h
  · next hne =>
      rw [if_neg hne]
      exact followPieces_put hwritten h

theorem directoryAt_put : (t.put location contents).directoryAt ps = .ok there ↔
    t.directoryAt ps = .ok there := by
  rw [directoryAt_eq_ok_iff, directoryAt_eq_ok_iff, directory_put hwritten]
  refine and_congr_left fun hdir => ⟨fun h => ?_, followPieces_put hwritten⟩
  rw [followPieces_eq] at h ⊢
  rcases follow_put_cases hwritten h with h | ⟨rfl, -⟩
  · exact h
  · exact absurd hdir (not_directory_of_target hwritten)

theorem target_put : (t.put location contents).target path = .ok place ↔
    t.target path = .ok place := by
  simp only [target_eq_ok_iff, directoryAt_put hwritten, ne_eq,
    directory_put hwritten]

/-- A path that is there after the write was there before, or its last name is
that of the file that was written. -/
theorem pathExists_put_cases
    (h : (t.put location contents).pathExists path = true) :
    t.pathExists path = true ∨ ∃ parents name directory,
      pieces path = parents ++ [name] ∧ IsName name ∧
        location = directory ++ [name] := by
  obtain ⟨there, hlocate⟩ := pathExists_iff.mp h
  obtain ⟨hlimit, hresolve⟩ := resolve_of_locate hlocate
  unfold resolve at hresolve
  split at hresolve
  · cases hresolve
  next hne =>
  rw [followPieces_eq] at hresolve
  rcases follow_put_cases hwritten hresolve with
    hold | ⟨-, parents, name, directory, hlast, hstays, hup, -, hplace⟩
  · refine Or.inl (pathExists_iff.mpr ⟨there, ?_⟩)
    rw [locate, if_pos hlimit, resolve, if_neg hne, followPieces_eq]
    exact hold
  · obtain ⟨front, hfront⟩ := exists_concat_of_start hlast
    have hmem : name ∈ pieces path := by simp [hfront]
    exact Or.inr ⟨front, name, directory, hfront,
      ⟨hstays, hup, not_mem_of_mem_pieces hmem⟩, hplace⟩

end Put

/-! ## Reading -/

theorem read_eq_ok_iff : t.read path = .ok contents ↔
    ∃ location, t.locate path = .ok location ∧
      t.node? location = some (.file contents) := by
  unfold read
  split
  · next h => simp [h]
  · next location h =>
      split
      · next hfile => simp [h, hfile]
      · next hdir => simp [h, hdir]
      · next hnone => simp [h, hnone]

theorem copy_eq_ok {source target : String} (h : t.copy source target = .ok t') :
    ∃ contents, t.read source = .ok contents ∧
      t.write target contents = .ok t' := by
  unfold copy at h
  split at h
  · next contents hread => exact ⟨contents, hread, h⟩
  · cases h
  · cases h

theorem holds_of_target (h : t.target path = .ok location)
    (hfile : t.node? location = some (.file contents)) : t.Holds path contents :=
  ⟨location, (resolve_of_locate (locate_of_target h hfile)).2, hfile⟩

theorem holds_put (h : t.target path = .ok location) :
    (t.put location contents).Holds path contents :=
  holds_of_target ((target_put h).mpr h) (node?_put_self h)

theorem holds_put_of_ne {other : String} {kept : ByteArray}
    (h : t.target path = .ok location) (hother : t.target other = .ok place)
    (hne : place ≠ location) (hfile : t.node? place = some (.file kept)) :
    (t.put location contents).Holds other kept := by
  refine holds_of_target ((target_put h).mpr hother) ?_
  rw [node?_put_of_ne h hne, hfile]

/-! ## Absolute paths -/

/-- Every piece of a location is a name. -/
def Named (location : Location) : Prop := ∀ name ∈ location, IsName name

theorem Named.follow (hhere : Named here) (hps : ∀ piece ∈ ps, '/' ∉ piece.toList)
    (h : t.follow here ps = .ok there) : Named there := by
  induction ps generalizing here with
  | nil =>
      injection h with h
      exact h ▸ hhere
  | cons piece ps ih =>
      obtain ⟨hpiece, hps⟩ := List.forall_mem_cons.mp hps
      obtain ⟨-, next, hstep, hnext⟩ := follow_cons_eq_ok_iff.mp h
      refine ih ?_ hps hnext
      cases hstep with
      | stay => exact hhere
      | up => exact fun name hname => hhere name (List.dropLast_subset _ hname)
      | name hname hup =>
          intro other hother
          rcases List.mem_append.mp hother with hother | hother
          · exact hhere other hother
          · exact List.mem_singleton.mp hother ▸ ⟨hname, hup, hpiece⟩

theorem Named.resolve (hstart : Named t.workingDirectory)
    (h : t.resolve path = .ok location) : Named location := by
  unfold FileTree.resolve at h
  split at h
  · cases h
  · have hclean : ∀ piece ∈ pieces path, '/' ∉ piece.toList := fun _ =>
      not_mem_of_mem_pieces
    generalize pieces path = ps at h hclean
    rw [followPieces_eq, start] at h
    split at h
    · have hroot : Named [] := fun _ hname => absurd hname List.not_mem_nil
      exact hroot.follow (fun _ hp => hclean _ (List.mem_of_mem_tail hp)) h
    · exact hstart.follow hclean h

theorem last_of_target (h : t.target path = .ok location)
    (hpieces : pieces path = parents ++ [name]) :
    IsName name ∧ ∃ directory, location = directory ++ [name] := by
  obtain ⟨-, parents', name', directory, hpieces', hname, -, -, -, rfl⟩ :=
    target_eq_ok_iff.mp h
  obtain ⟨-, heq⟩ := List.append_inj' (hpieces.symm.trans hpieces') rfl
  obtain rfl := List.singleton_inj.mp heq
  exact ⟨hname, directory, rfl⟩

theorem name_of_target (h : t.target path = .ok location) :
    ∃ parents name directory, pieces path = parents ++ [name] ∧ IsName name ∧
      location = directory ++ [name] := by
  obtain ⟨parents, name, hpieces⟩ := exists_pieces_eq_concat path
  obtain ⟨hname, directory, hlocation⟩ := last_of_target h hpieces
  exact ⟨parents, name, directory, hpieces, hname, hlocation⟩

/-- A path with another extension that can be written to is one with the stem of
the last name. -/
theorem withExtension_of_target {extension : String}
    (hpieces : pieces path = parents ++ [name]) (hname : IsName name)
    (hclean : '/' ∉ extension.toList)
    (h : t.target (withExtension path extension) = .ok location) :
    withExtension path extension =
        ofPieces (parents ++ [stem name ++ "." ++ extension]) ∧
      ∃ directory, location = directory ++ [stem name ++ "." ++ extension] := by
  rcases withExtension_cases hpieces hname extension with heq | heq
  · refine ⟨heq, ?_⟩
    have hslash : '/' ∉ (stem name ++ "." ++ extension).toList := by
      simp [hname.noSlash_stem, hclean]
    exact (last_of_target (heq ▸ h) (pieces_sibling hpieces hslash)).2
  · have hup : '/' ∉ "..".toList := by decide
    have hparent := (last_of_target (heq ▸ h) (pieces_sibling hpieces hup)).1
    exact absurd rfl hparent.ne_up

/-- With another extension a path leads to its own file only if it has that
extension already. -/
theorem withExtension_eq_self {extension : String} {directory : Location}
    (hpieces : pieces path = parents ++ [name]) (hname : IsName name)
    (hclean : '/' ∉ extension.toList)
    (h : t.target (withExtension path extension) = .ok (directory ++ [name])) :
    withExtension path extension = path := by
  obtain ⟨heq, directory', hlast⟩ := withExtension_of_target hpieces hname hclean h
  obtain ⟨-, hsame⟩ := List.append_inj' hlast rfl
  rw [heq, ← List.singleton_inj.mp hsame, ← hpieces, ofPieces_pieces]

theorem backup_ne (hbackup : t.target (backup path) = .ok location)
    (h : t.target path = .ok place) : location ≠ place := by
  obtain ⟨parents, name, directory, hpieces, hname, rfl⟩ := name_of_target h
  obtain ⟨-, directory', rfl⟩ := last_of_target hbackup (pieces_backup hpieces)
  intro heq
  obtain ⟨-, hlast⟩ := List.append_inj' heq rfl
  have hlength := congrArg String.length (List.singleton_inj.mp hlast)
  rw [String.length_append, show ".bak".length = 4 from rfl] at hlength
  omega

end Descent.FileTree
