import UrReplay.Proofs.Files.Walk
/-!
# UrReplay.Proofs.Files.Write

Files that are written in a tree without links. Where a file goes does not depend on the files that are
there, only on the directories (`Overlay.destination?`). So files at different locations can be written in
any order (`get?_insertFiles_congr`), and what is elsewhere is found and read as before (`Overlay.read`).
-/

namespace UrReplay.FileTree

variable {tree t : FileTree} {directory path : Path} {location place : Location} {name : Text}
  {content : Bytes} {places : List Location} {files files' : List (Location × Bytes)}

/-- The location of the file that is written at a path. -/
def destination? (tree : FileTree) (path : Path) : Option Location :=
  match tree.resolve path with
  | .ok (.file location _) => some location
  | .ok (.vacant location) => some location
  | _ => none

theorem write_of_destination? (h : tree.destination? path = some location) (content : Bytes) :
    tree.write path content = .ok (tree.insert location (.file content)) := by
  rw [destination?] at h
  rw [write]
  cases hresolve : tree.resolve path with
  | error e => simp [hresolve] at h
  | ok arrival =>
    cases arrival with
    | directory place => simp [hresolve] at h
    | file place content => simp_all
    | vacant place => simp_all

theorem write_of_destination?_eq_none (h : tree.destination? path = none) (content : Bytes) :
    ∃ e, tree.write path content = .error e := by
  rw [destination?] at h
  rw [write]
  cases hresolve : tree.resolve path with
  | error e => exact ⟨e, rfl⟩
  | ok arrival =>
    cases arrival with
    | directory place => exact ⟨.inaccessible, rfl⟩
    | file place content => simp [hresolve] at h
    | vacant place => simp [hresolve] at h

/-! ### Operations -/

section

variable {α β : Type} (tree path)

theorem run_pure (a : α) : (pure a : StateM FileTree α).run tree = (a, tree) := rfl

theorem run_get : (get : StateM FileTree FileTree).run tree = (tree, tree) := rfl

theorem run_bind (x : StateM FileTree α) (f : α → StateM FileTree β) :
    (x >>= f).run tree = (f (x.run tree).1).run (x.run tree).2 := rfl

theorem run_readFile :
    (MonadFiles.readFile path : StateM FileTree _).run tree = (tree.read path, tree) := rfl

theorem run_writeFile (content : Bytes) :
    (MonadFiles.writeFile path content : StateM FileTree _).run tree =
      match tree.destination? path with
      | some location => (.ok (), tree.insert location (.file content))
      | none => ((tree.write path content).map fun _ => (), tree) := by
  cases hplace : tree.destination? path with
  | some location =>
    simp only [MonadFiles.writeFile, run_bind, run_get, write_of_destination? hplace]
    rfl
  | none =>
    obtain ⟨e, he⟩ := write_of_destination?_eq_none hplace content
    simp only [MonadFiles.writeFile, run_bind, run_get, he]
    rfl

end

/-! ### Names in a directory -/

namespace DirectoryAt

theorem destination? (h : tree.DirectoryAt directory location) (hpath : path.NameIn directory name) :
    tree.destination? path =
      if Barred path name ∨ tree.get? (name :: location) = some .directory then none
      else some (name :: location) := by
  rw [FileTree.destination?, h.resolve hpath]
  by_cases hbarred : Barred path name
  · rw [if_pos hbarred, if_pos (Or.inl hbarred)]
  rw [if_neg hbarred, arrivalAt]
  cases hentry : tree.get? (name :: location) with
  | none => simp [hbarred]
  | some entry =>
    cases entry with
    | file content => simp [hbarred]
    | directory => simp
    | link target => exact absurd hentry (h.linkFree _ target)

theorem of_destination? (h : tree.DirectoryAt directory location) (hpath : path.NameIn directory name)
    (hplace : tree.destination? path = some place) :
    place = name :: location ∧ tree.get? place ≠ some .directory ∧ ¬Barred path name := by
  rw [h.destination? hpath] at hplace
  split at hplace
  · exact absurd hplace nofun
  · rename_i hfree
    rw [not_or] at hfree
    obtain rfl := Option.some.inj hplace
    exact ⟨rfl, hfree.2, hfree.1⟩

/-- Where no file can be written there is none to be read, and this is no missing file either. -/
theorem read_of_destination?_eq_none (h : tree.DirectoryAt directory location)
    (hpath : path.NameIn directory name) (hplace : tree.destination? path = none) :
    tree.read path = .error .inaccessible := by
  rw [h.destination? hpath] at hplace
  rw [read, h.resolve hpath]
  split at hplace
  · rename_i hreason
    by_cases hbarred : Barred path name
    · rw [if_pos hbarred]
    · rw [if_neg hbarred, arrivalAt, hreason.resolve_left hbarred]
  · simp at hplace

theorem read_of_file (h : tree.DirectoryAt directory location) (hpath : path.NameIn directory name)
    (hplace : tree.destination? path = some place) (hfile : tree.get? place = some (.file content)) :
    tree.read path = .ok content := by
  obtain ⟨rfl, -, hfree⟩ := h.of_destination? hpath hplace
  rw [read, h.resolve hpath, if_neg hfree, arrivalAt, hfile]

end DirectoryAt

/-! ### Writing one file after another -/

/-- The tree with files at locations, put there one after another. -/
def insertFiles (tree : FileTree) (files : List (Location × Bytes)) : FileTree :=
  files.foldl (fun tree file => tree.insert file.1 (.file file.2)) tree

theorem insertFiles_cons (tree : FileTree) (file : Location × Bytes) (files : List (Location × Bytes)) :
    tree.insertFiles (file :: files) = (tree.insert file.1 (.file file.2)).insertFiles files := rfl

theorem home_insertFiles (tree : FileTree) (files : List (Location × Bytes)) :
    (tree.insertFiles files).home = tree.home := by
  induction files generalizing tree with
  | nil => rfl
  | cons file files ih => rw [insertFiles_cons, ih, home_insert]

/-- Files go to locations that need not stay directories. -/
def Movable (tree : FileTree) (files : List (Location × Bytes)) : Prop :=
  ∀ place ∈ files.map Prod.fst, ¬tree.IsFixed place

theorem Movable.tail {file : Location × Bytes} (h : tree.Movable (file :: files)) (content : Bytes) :
    (tree.insert file.1 (.file content)).Movable files := fun place hplace hfixed =>
  h place (List.mem_cons_of_mem _ hplace) (isFixed_insert.1 hfixed)

theorem get?_insertFiles_of_not_mem (hfree : tree.Movable files)
    (h : location ∉ files.map Prod.fst) : (tree.insertFiles files).get? location = tree.get? location := by
  induction files generalizing tree with
  | nil => rfl
  | cons file files ih =>
    rw [List.map_cons, List.mem_cons, not_or] at h
    rw [insertFiles_cons, ih (hfree.tail file.2) h.2, get?_insert (hfree _ List.mem_cons_self), if_neg h.1]

theorem get?_insertFiles_of_mem (hfree : tree.Movable files) (hnodup : (files.map Prod.fst).Nodup)
    (h : (location, content) ∈ files) : (tree.insertFiles files).get? location = some (.file content) := by
  induction files generalizing tree with
  | nil => exact absurd h List.not_mem_nil
  | cons file files ih =>
    rw [List.map_cons, List.nodup_cons] at hnodup
    rw [insertFiles_cons]
    -- The files that are written later go elsewhere.
    rcases List.mem_cons.1 h with rfl | hrest
    · rw [get?_insertFiles_of_not_mem (hfree.tail content) hnodup.1,
        get?_insert (hfree _ List.mem_cons_self), if_pos rfl]
    · exact ih (hfree.tail file.2) hnodup.2 hrest

/-- What is at a location depends on the files that were put into the tree and not on their order. -/
theorem get?_insertFiles_congr
    (hget : location ∉ files.map Prod.fst → t.get? location = tree.get? location)
    (hhome : t.home = tree.home) (hfree : tree.Movable files) (hnodup : (files.map Prod.fst).Nodup)
    (hperm : files'.Perm files) :
    (t.insertFiles files').get? location = (tree.insertFiles files).get? location := by
  have hplaces := hperm.map Prod.fst
  have hfree' : t.Movable files' := by
    intro place hplace hfixed
    rw [IsFixed, hhome] at hfixed
    exact hfree place (hplaces.mem_iff.1 hplace) hfixed
  by_cases h : location ∈ files.map Prod.fst
  · obtain ⟨⟨_, content⟩, hmem, rfl⟩ := List.mem_map.1 h
    rw [get?_insertFiles_of_mem hfree hnodup hmem,
      get?_insertFiles_of_mem hfree' (hplaces.nodup_iff.2 hnodup) (hperm.mem_iff.2 hmem)]
  · rw [get?_insertFiles_of_not_mem hfree h,
      get?_insertFiles_of_not_mem hfree' (mt hplaces.mem_iff.1 h), hget h]

/-! ### What stays as it is -/

/-- A tree with the same directories as another one, the working directory too, and with the same files but
at some places. -/
structure Overlay (tree t : FileTree) (places : List Location) : Prop where
  home : t.home = tree.home
  elsewhere : ∀ location, location ∉ places → t.get? location = tree.get? location
  directory_iff : ∀ location, t.get? location = some .directory ↔ tree.get? location = some .directory
  linkFree : t.LinkFree

namespace Overlay

theorem refl (h : tree.LinkFree) (places : List Location) : Overlay tree tree places :=
  ⟨rfl, fun _ _ => rfl, fun _ => Iff.rfl, h⟩

theorem insert (h : Overlay tree t places) (hplace : place ∈ places)
    (hfree : tree.get? place ≠ some .directory) (content : Bytes) :
    Overlay tree (t.insert place (.file content)) places := by
  have hmovable : ¬t.IsFixed place := mt IsFixed.get?_eq (mt (h.directory_iff place).1 hfree)
  refine ⟨?_, fun location hlocation => ?_, fun location => ?_, fun location target => ?_⟩
  · rw [home_insert, h.home]
  · have hne : location ≠ place := fun heq => hlocation (heq ▸ hplace)
    rw [get?_insert hmovable, if_neg hne, h.elsewhere location hlocation]
  · rw [get?_insert hmovable]
    split
    · rename_i heq
      exact ⟨nofun, fun hdirectory => absurd (heq ▸ hdirectory) hfree⟩
    · exact h.directory_iff location
  · rw [get?_insert hmovable]
    split
    · exact nofun
    · exact h.linkFree location target

theorem directoryAt (h : Overlay tree t places) (hdirectory : tree.DirectoryAt directory location) :
    t.DirectoryAt directory location :=
  ⟨h.linkFree, resolve_directory_congr hdirectory.linkFree h.home (fun l => (h.directory_iff l).2)
    hdirectory.resolve_eq⟩

theorem destination? (h : Overlay tree t places) (hdirectory : tree.DirectoryAt directory location)
    (hpath : path.NameIn directory name) : t.destination? path = tree.destination? path := by
  rw [(h.directoryAt hdirectory).destination? hpath, hdirectory.destination? hpath]
  simp only [h.directory_iff]

theorem read (h : Overlay tree t places) (hdirectory : tree.DirectoryAt directory location)
    (hpath : path.NameIn directory name) (hplace : name :: location ∉ places) :
    t.read path = tree.read path := by
  have harrival : t.arrivalAt (name :: location) = tree.arrivalAt (name :: location) := by
    rw [arrivalAt, arrivalAt, h.elsewhere _ hplace]
  rw [FileTree.read, FileTree.read, (h.directoryAt hdirectory).resolve hpath, hdirectory.resolve hpath,
    harrival]

end Overlay

end UrReplay.FileTree
