import UrReplay.Files.Access
/-!
# UrReplay.Files.Tree.Basic

A file system as a value: a tree of directories, files and symbolic links.

A tree is the list of its entries, each with its location; no location comes twice. One location is
the working directory, and what leads there from the top stays as it is. `get?` is the view through
which everything else looks at a tree: after `insert` and `erase` it differs at one location only
(`get?_insert`, `get?_erase`).

A tree says what is where, and who may look or change it is not asked: there are no permissions, and
no two locations share a file unless a link says so.
-/

namespace UrReplay

/-- A place in a tree: the names on the way up from it, its own name first. The top of the tree is
the empty list. -/
abbrev Location := List Text

/-- The locations on the way up from a location, itself first. The top is left out. -/
def Location.way : Location → List Location
  | [] => []
  | name :: up => (name :: up) :: way up

/-- What can be at a location. -/
inductive Entry
  | file (content : Bytes)
  | directory
  /-- A symbolic link. A relative target is followed from the directory that the link is in. -/
  | link (target : Path)
  deriving Repr, DecidableEq

/-- A tree of files. The top is always a directory and has no entry of its own. -/
structure FileTree where
  /-- The working directory, where relative paths begin. -/
  home : Location := []
  entries : List (Location × Entry)
  nodup : (entries.map Prod.fst).Nodup
  /-- The working directory exists. -/
  way : ∀ place ∈ home.way, (place, Entry.directory) ∈ entries

namespace FileTree

theorem length_le_of_mem_way {place home : Location} (h : place ∈ home.way) :
    place.length ≤ home.length := by
  induction home with
  | nil => exact absurd h List.not_mem_nil
  | cons name up ih =>
    rcases List.mem_cons.1 h with rfl | h
    · exact Nat.le_refl _
    · exact Nat.le_succ_of_le (ih h)

theorem nodup_way (home : Location) : home.way.Nodup := by
  induction home with
  | nil => exact List.nodup_nil
  | cons name up ih =>
    refine List.nodup_cons.2 ⟨fun h => ?_, ih⟩
    exact absurd (length_le_of_mem_way h) (Nat.not_succ_le_self _)

/-- The tree with nothing in it but an empty working directory. -/
def empty (home : Location) : FileTree where
  home
  entries := home.way.map (·, .directory)
  nodup := by
    rw [List.map_map, show Prod.fst ∘ (fun place : Location => (place, Entry.directory)) = id from rfl,
      List.map_id]
    exact nodup_way home
  way _ h := List.mem_map_of_mem h

/-- What is at a location. -/
def get? (tree : FileTree) : Location → Option Entry
  | [] => some .directory
  | place => tree.entries.lookup place

/-- A location that leads to the working directory, or is it, has to stay a directory. -/
def IsFixed (tree : FileTree) (place : Location) : Prop := place = [] ∨ place ∈ tree.home.way

instance (tree : FileTree) (place : Location) : Decidable (tree.IsFixed place) :=
  inferInstanceAs (Decidable (_ ∨ _))

theorem way_filter (tree : FileTree) {place : Location} (h : ¬tree.IsFixed place) :
    ∀ other ∈ tree.home.way, (other, Entry.directory) ∈ tree.entries.filter (·.1 != place) := by
  intro other hother
  refine List.mem_filter.2 ⟨tree.way other hother, bne_iff_ne.2 fun heq => ?_⟩
  exact h (.inr (heq ▸ hother))

/-- The tree without what is at a location, unless that has to stay. -/
def erase (tree : FileTree) (place : Location) : FileTree :=
  if h : tree.IsFixed place then tree
  else
    { home := tree.home
      entries := tree.entries.filter (·.1 != place)
      nodup := tree.nodup.sublist (List.filter_sublist.map _)
      way := tree.way_filter h }

/-- The tree with an entry at a location, in place of what is there, unless that has to stay. -/
def insert (tree : FileTree) (place : Location) (entry : Entry) : FileTree :=
  if h : tree.IsFixed place then tree
  else
    { home := tree.home
      entries := (place, entry) :: tree.entries.filter (·.1 != place)
      nodup := by
        refine List.nodup_cons.2 ⟨?_, tree.nodup.sublist (List.filter_sublist.map _)⟩
        simp
      way := fun other hother => List.mem_cons_of_mem _ (tree.way_filter h other hother) }

/-! ### The view -/

@[simp] theorem get?_nil (tree : FileTree) : tree.get? [] = some .directory := rfl

theorem lookup_filter_ne {place other : Location} (h : other ≠ place)
    (entries : List (Location × Entry)) :
    (entries.filter (·.1 != place)).lookup other = entries.lookup other := by
  induction entries with
  | nil => rfl
  | cons e entries ih =>
    obtain ⟨there, entry⟩ := e
    by_cases he : there = place
    · subst he
      have : (other == there) = false := by simpa using h
      simp [ih, List.lookup_cons, this]
    · by_cases ho : other = there <;> simp [he, ho, ih, List.lookup_cons]

theorem lookup_filter_self (place : Location) (entries : List (Location × Entry)) :
    (entries.filter (·.1 != place)).lookup place = none := by
  induction entries with
  | nil => rfl
  | cons e entries ih =>
    obtain ⟨there, entry⟩ := e
    by_cases he : there = place
    · simp [he, ih]
    · have : (place == there) = false := by simp [Ne.symm he]
      simp [he, ih, List.lookup_cons, this]

theorem get?_eq_some_iff {tree : FileTree} {place : Location} {entry : Entry} (h : place ≠ []) :
    tree.get? place = some entry ↔ (place, entry) ∈ tree.entries := by
  obtain ⟨name, up, rfl⟩ := List.exists_cons_of_ne_nil h
  show tree.entries.lookup (name :: up) = some entry ↔ _
  rw [List.lookup_eq_some_iff]
  constructor
  · rintro ⟨before, after, hentries, -⟩
    rw [hentries]
    exact List.mem_append_right before List.mem_cons_self
  · intro hmem
    obtain ⟨before, after, hentries⟩ := List.append_of_mem hmem
    refine ⟨before, after, hentries, fun earlier hearlier => ?_⟩
    have hnodup := tree.nodup
    rw [hentries, List.map_append, List.map_cons, List.nodup_append] at hnodup
    obtain ⟨-, -, hdisjoint⟩ := hnodup
    rw [bne_iff_ne]
    exact (hdisjoint earlier.1 (List.mem_map_of_mem hearlier) _ List.mem_cons_self).symm

theorem IsFixed.get?_eq {tree : FileTree} {place : Location} (h : tree.IsFixed place) :
    tree.get? place = some .directory := by
  cases place with
  | nil => rfl
  | cons name up =>
    rw [get?_eq_some_iff (List.cons_ne_nil name up)]
    exact tree.way _ (h.resolve_left (List.cons_ne_nil name up))

@[simp] theorem home_insert (tree : FileTree) (place : Location) (entry : Entry) :
    (tree.insert place entry).home = tree.home := by
  unfold insert
  split <;> rfl

theorem isFixed_insert {tree : FileTree} {place other : Location} {entry : Entry} :
    (tree.insert place entry).IsFixed other ↔ tree.IsFixed other := by
  rw [IsFixed, home_insert, IsFixed]

theorem get?_erase {tree : FileTree} {place : Location} (h : ¬tree.IsFixed place)
    (other : Location) :
    (tree.erase place).get? other = if other = place then none else tree.get? other := by
  rw [erase, dif_neg h]
  cases other with
  | nil => rw [get?_nil, get?_nil, if_neg fun heq => h (.inl heq.symm)]
  | cons name up =>
    by_cases ho : name :: up = place
    · subst ho
      simpa [get?] using lookup_filter_self _ tree.entries
    · simpa [get?, ho] using lookup_filter_ne ho tree.entries

theorem get?_insert {tree : FileTree} {place : Location} (h : ¬tree.IsFixed place) (entry : Entry)
    (other : Location) :
    (tree.insert place entry).get? other
      = if other = place then some entry else tree.get? other := by
  rw [insert, dif_neg h]
  cases other with
  | nil => rw [get?_nil, get?_nil, if_neg fun heq => h (.inl heq.symm)]
  | cons name up =>
    by_cases ho : name :: up = place
    · subst ho
      simp [get?]
    · have : (name :: up == place) = false := by simpa using ho
      simpa [get?, ho, List.lookup_cons, this] using lookup_filter_ne ho tree.entries

/-! ### Contents -/

/-- The entries of the directory at a location. -/
def children (tree : FileTree) (place : Location) : List Listed :=
  tree.entries.filterMap fun
    | (name :: up, entry) =>
      if up = place then some ⟨name, entry matches .file _⟩ else none
    | ([], _) => none

/-- The path from the working directory to a location below it. -/
def pathFromHome? (tree : FileTree) (place : Location) : Option Path :=
  if tree.home <:+ place then
    some ⟨['/'].intercalate (place.take (place.length - tree.home.length)).reverse⟩
  else none

/-- The files below the working directory, with their paths from there. -/
def files (tree : FileTree) : List (Path × Bytes) :=
  tree.entries.filterMap fun
    | (place, .file content) => (tree.pathFromHome? place).map (·, content)
    | _ => none

end FileTree

end UrReplay
