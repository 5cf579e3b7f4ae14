import UrReplay.Files.Tree.Access
import UrReplay.Proofs.Files.Path
/-!
# UrReplay.Proofs.Files.Walk

Walks through a tree without links. Each piece of a path that another one follows leads from one directory
to the next (`Leads`). So pieces that say nothing can be left out on the way to a directory
(`walkWith_saying_iff`), and a name behind the steps to a directory is looked up there
(`DirectoryAt.resolve`, `DirectoryAt.locate?`).
-/

namespace UrReplay.FileTree

open UrReplay.Path (isIdle saying)

/-- No entry of a tree is a link. -/
def LinkFree (tree : FileTree) : Prop := ∀ location target, tree.get? location ≠ some (.link target)

/-- A piece leads from one directory to another one. -/
inductive Leads (tree : FileTree) : Location → Text → Location → Prop
  | idle {place : Location} {piece : Text} : isIdle piece = true → Leads tree place piece place
  /-- The directory above the top is the top. -/
  | up (place : Location) : Leads tree place ['.', '.'] place.tail
  | down {place : Location} {name : Text} : isIdle name = false → name ≠ ['.', '.'] →
      ¬nameLimit < Utf8.size name → tree.get? (name :: place) = some .directory →
      Leads tree place name (name :: place)

/-- What a tree without links has at a location. -/
def arrivalAt (tree : FileTree) (location : Location) : Arrival :=
  match tree.get? location with
  | some (.file content) => .file location content
  | some .directory => .directory location
  | _ => .vacant location

variable {tree t : FileTree} {follow follow' : Location → List Text → Except FileError Arrival}
  {place place' : Location} {piece name : Text} {pieces : List Text}

/-! ### One piece -/

theorem walkWith_of_idle (h : isIdle piece = true) (rest : List Text) :
    tree.walkWith follow place (piece :: rest) = tree.walkWith follow place rest := by
  rw [walkWith, if_pos h]

theorem walkWith_up (rest : List Text) :
    tree.walkWith follow place (['.', '.'] :: rest) = tree.walkWith follow place.tail rest := by
  rw [walkWith, if_neg (by decide), if_pos rfl]

theorem walkWith_of_long (hidle : isIdle piece = false) (hup : piece ≠ ['.', '.'])
    (hlong : nameLimit < Utf8.size piece) (place : Location) (rest : List Text) :
    tree.walkWith follow place (piece :: rest) = .error .inaccessible := by
  rw [walkWith, if_neg (by rw [hidle]; decide), if_neg hup, if_pos hlong]

theorem walkWith_of_directory (hidle : isIdle piece = false) (hup : piece ≠ ['.', '.'])
    (hshort : ¬nameLimit < Utf8.size piece) (hget : tree.get? (piece :: place) = some .directory)
    (rest : List Text) :
    tree.walkWith follow place (piece :: rest) = tree.walkWith follow (piece :: place) rest := by
  rw [walkWith, if_neg (by rw [hidle]; decide), if_neg hup, if_neg hshort]
  simp only [hget]

/-- A walk that comes to something else than a directory ends there, and well only if there are no more
pieces. -/
theorem walkWith_of_not_directory (follow : Location → List Text → Except FileError Arrival)
    (hlinks : tree.LinkFree) (hidle : isIdle piece = false) (hup : piece ≠ ['.', '.'])
    (hshort : ¬nameLimit < Utf8.size piece) (hget : tree.get? (piece :: place) ≠ some .directory) :
    ∃ e, ∀ rest, tree.walkWith follow place (piece :: rest) =
      if rest = [] then .ok (tree.arrivalAt (piece :: place)) else .error e := by
  have hwalk (rest : List Text) := walkWith.eq_2 tree follow place piece rest
  simp only [if_neg (Bool.eq_false_iff.1 hidle), if_neg hup, if_neg hshort] at hwalk
  rw [arrivalAt]
  cases hentry : tree.get? (piece :: place) with
  | none =>
    simp only [hentry] at hwalk
    exact ⟨.notFound, hwalk⟩
  | some entry =>
    simp only [hentry] at hwalk
    cases entry with
    | file content => exact ⟨.inaccessible, hwalk⟩
    | directory => exact absurd hentry hget
    | link target => exact absurd hentry (hlinks _ target)

theorem arrivalAt_ne_directory {location : Location} (hget : tree.get? location ≠ some .directory)
    (place : Location) : tree.arrivalAt location ≠ .directory place := by
  rw [arrivalAt]
  split
  · exact nofun
  · rename_i hdirectory
    exact absurd hdirectory hget
  · exact nofun

/-- A name is looked up in the directory that a walk has led to. -/
theorem walkWith_name (hlinks : tree.LinkFree) (hidle : isIdle name = false) (hup : name ≠ ['.', '.'])
    (place : Location) :
    tree.walkWith follow place [name] =
      if nameLimit < Utf8.size name then .error .inaccessible
      else .ok (tree.arrivalAt (name :: place)) := by
  split
  · rename_i hlong
    exact walkWith_of_long hidle hup hlong place []
  · rename_i hshort
    by_cases hget : tree.get? (name :: place) = some .directory
    · rw [walkWith_of_directory hidle hup hshort hget, walkWith, arrivalAt, hget]
    · obtain ⟨e, hwalk⟩ := walkWith_of_not_directory follow hlinks hidle hup hshort hget
      rw [hwalk, if_pos rfl]

/-! ### From one directory to the next -/

theorem Leads.walkWith_cons (h : Leads tree place piece place') (rest : List Text) :
    tree.walkWith follow place (piece :: rest) = tree.walkWith follow place' rest := by
  cases h with
  | idle hidle => exact walkWith_of_idle hidle rest
  | up => exact walkWith_up rest
  | down hidle hup hshort hget => exact walkWith_of_directory hidle hup hshort hget rest

/-- A walk to a directory starts with a piece that leads to another one. -/
theorem leads_of_walkWith (hlinks : tree.LinkFree) {q : Location}
    (h : tree.walkWith follow place (piece :: pieces) = .ok (.directory q)) :
    ∃ place', Leads tree place piece place' ∧ tree.walkWith follow place' pieces = .ok (.directory q) := by
  cases hidle : isIdle piece with
  | true => exact ⟨place, .idle hidle, walkWith_of_idle hidle pieces ▸ h⟩
  | false =>
    by_cases hup : piece = ['.', '.']
    · subst hup
      exact ⟨place.tail, .up place, walkWith_up pieces ▸ h⟩
    by_cases hshort : nameLimit < Utf8.size piece
    · exact absurd ((walkWith_of_long hidle hup hshort place pieces).symm.trans h) nofun
    by_cases hget : tree.get? (piece :: place) = some .directory
    · exact ⟨_, .down hidle hup hshort hget, walkWith_of_directory hidle hup hshort hget pieces ▸ h⟩
    obtain ⟨e, hwalk⟩ := walkWith_of_not_directory follow hlinks hidle hup hshort hget
    rw [hwalk] at h
    split at h
    · -- The walk ends here, but at no directory.
      exact absurd (Except.ok.inj h) (arrivalAt_ne_directory hget q)
    · exact absurd h nofun

/-- More pieces are taken from where the others lead. -/
theorem walkWith_append (hlinks : tree.LinkFree) {q : Location}
    (h : tree.walkWith follow place pieces = .ok (.directory q)) (more : List Text) :
    tree.walkWith follow place (pieces ++ more) = tree.walkWith follow q more := by
  induction pieces generalizing place with
  | nil =>
    rw [walkWith] at h
    obtain rfl : place = q := by simpa using h
    rfl
  | cons piece pieces ih =>
    obtain ⟨place', hleads, hrest⟩ := leads_of_walkWith hlinks h
    rw [List.cons_append, hleads.walkWith_cons, ih hrest]

/-- Pieces that say nothing can be left out on the way to a directory. -/
theorem walkWith_saying_iff (hlinks : tree.LinkFree) {q : Location} :
    tree.walkWith follow place (saying pieces) = .ok (.directory q) ↔
      tree.walkWith follow place pieces = .ok (.directory q) := by
  induction pieces generalizing place with
  | nil => exact Iff.rfl
  | cons piece pieces ih =>
    cases hidle : isIdle piece with
    | true => rw [Path.saying_cons_of_idle hidle, walkWith_of_idle hidle, ih]
    | false =>
      rw [Path.saying_cons_of_not_idle hidle]
      constructor
      · intro h
        obtain ⟨place', hleads, hrest⟩ := leads_of_walkWith hlinks h
        rw [hleads.walkWith_cons, ih.1 hrest]
      · intro h
        obtain ⟨place', hleads, hrest⟩ := leads_of_walkWith hlinks h
        rw [hleads.walkWith_cons, ih.2 hrest]

/-- A walk to a directory is the same in every tree that has the directories of this one. -/
theorem walkWith_directory_congr (hlinks : tree.LinkFree)
    (hdirectories : ∀ location, tree.get? location = some .directory → t.get? location = some .directory)
    {q : Location} (h : tree.walkWith follow place pieces = .ok (.directory q)) :
    t.walkWith follow' place pieces = .ok (.directory q) := by
  induction pieces generalizing place with
  | nil =>
    rw [walkWith] at h ⊢
    exact h
  | cons piece pieces ih =>
    obtain ⟨place', hleads, hrest⟩ := leads_of_walkWith hlinks h
    -- The other tree may have more directories, but `piece` leads to the same one there.
    have hleads' : Leads t place piece place' := by
      cases hleads with
      | idle hidle => exact .idle hidle
      | up => exact .up place
      | down hidle hup hshort hget => exact .down hidle hup hshort (hdirectories _ hget)
    rw [hleads'.walkWith_cons]
    exact ih hrest

/-! ### Paths -/

/-- A path is too long for any file to be there, or holds a character that no path does. -/
def Barred (path : Path) (name : Text) : Prop :=
  '\x00' ∈ path.text ∨ pathLimit < Utf8.size path.text ∨ nameLimit < Utf8.size name

instance (path : Path) (name : Text) : Decidable (Barred path name) :=
  inferInstanceAs (Decidable (_ ∨ _ ∨ _))

theorem walk_of_resolve {path : Path} {arrival : Arrival} (h : tree.resolve path = .ok arrival) :
    path.text ≠ [] ∧ ¬('\x00' ∈ path.text ∨ pathLimit < Utf8.size path.text) ∧
      walk tree linkLimit (start path tree.home) path.pieces = .ok arrival := by
  rw [resolve] at h
  split at h
  · exact absurd h nofun
  · rename_i hne
    split at h
    · exact absurd h nofun
    · rename_i hbarred
      exact ⟨hne, hbarred, h⟩

theorem resolve_directory_congr (hlinks : tree.LinkFree) (hhome : t.home = tree.home)
    (hdirectories : ∀ location, tree.get? location = some .directory → t.get? location = some .directory)
    {path : Path} {place : Location} (h : tree.resolve path = .ok (.directory place)) :
    t.resolve path = .ok (.directory place) := by
  obtain ⟨hne, hbarred, hwalk⟩ := walk_of_resolve h
  rw [resolve, if_neg hne, if_neg hbarred, hhome]
  exact walkWith_directory_congr hlinks hdirectories hwalk

/-- Paths that are both absolute or both relative begin at the same place. -/
theorem start_congr {path other : Path} (h : path.isAbsolute = other.isAbsolute) (directory : Location) :
    start path directory = start other directory := by
  rw [start, start, h]

/-- A path leads to the directory at a location of a tree without links. -/
structure DirectoryAt (tree : FileTree) (directory : Path) (location : Location) : Prop where
  linkFree : tree.LinkFree
  resolve_eq : tree.resolve directory = .ok (.directory location)

namespace DirectoryAt

variable {directory path : Path} {location : Location}

/-- All pieces that take the steps of the path lead there from where the path begins. -/
theorem walk_of_saying_eq (h : tree.DirectoryAt directory location)
    (hsteps : saying pieces = directory.steps) :
    walk tree linkLimit (start directory tree.home) pieces = .ok (.directory location) := by
  obtain ⟨-, -, hwalk⟩ := walk_of_resolve h.resolve_eq
  refine (walkWith_saying_iff h.linkFree).1 ?_
  rw [hsteps]
  exact (walkWith_saying_iff h.linkFree).2 hwalk

/-- A name in the directory is looked up at the location. -/
theorem resolve (h : tree.DirectoryAt directory location) (hpath : path.NameIn directory name) :
    tree.resolve path =
      if Barred path name then .error .inaccessible else .ok (tree.arrivalAt (name :: location)) := by
  obtain ⟨hname, hends, habsolute⟩ := hpath
  rw [FileTree.resolve, if_neg (hends.text_ne_nil hname.ne_nil), start_congr habsolute]
  obtain ⟨before, hpieces, hsteps⟩ := hends
  have hlookup : walk tree linkLimit (start directory tree.home) path.pieces =
      tree.walkWith (walk tree (linkLimit - 1)) location [name] := by
    rw [hpieces]
    exact walkWith_append h.linkFree (h.walk_of_saying_eq hsteps) [name]
  rw [hlookup, walkWith_name h.linkFree hname.not_idle hname.ne_up]
  by_cases htext : '\x00' ∈ path.text ∨ pathLimit < Utf8.size path.text
  · have hbarred : Barred path name := or_assoc.1 (.inl htext)
    rw [if_pos htext, if_pos hbarred]
  · rw [if_neg htext]
    by_cases hlong : nameLimit < Utf8.size name
    · have hbarred : Barred path name := .inr (.inr hlong)
      rw [if_pos hlong, if_pos hbarred]
    · have hfree : ¬Barred path name := fun hbarred => (or_assoc.2 hbarred).elim htext hlong
      rw [if_neg hlong, if_neg hfree]

theorem locate? (h : tree.DirectoryAt directory location) (hpath : path.NameIn directory name) :
    tree.locate? path = some (name :: location) := by
  obtain ⟨hname, ⟨before, hpieces, hsteps⟩, habsolute⟩ := hpath
  have hkept : ¬(isIdle name || name == ['.', '.']) = true := by
    rw [hname.not_idle, Bool.false_or, beq_iff_eq]
    exact hname.ne_up
  rw [FileTree.locate?, hpieces, List.getLast?_concat, List.dropLast_concat, start_congr habsolute]
  simp only [Option.bind_eq_bind, Option.bind_some, if_neg hkept, h.walk_of_saying_eq hsteps]

end DirectoryAt

end UrReplay.FileTree
