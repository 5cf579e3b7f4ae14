import UrReplay.Proofs.Files.Write
/-!
# UrReplay.Proofs.Files.ReadBack

A file that is written is read back through the same path, in any tree and whatever links lead there
(`read_insert`). A walk to a place for a file passes through directories and links only (`Arrives`), and
there is no directory and no link at the place itself (`Arrives.free`). So the walk does not depend on the
file at its end (`Arrives.insert`).
-/

namespace UrReplay.FileTree

open UrReplay.Path (isIdle)

variable {tree : FileTree} {follow : Location → List Text → Except FileError Arrival} {links : Nat}
  {place : Location} {piece : Text} {pieces : List Text} {location up : Location} {arrival : Arrival}
  {path : Path} {content : Bytes}

/-- A piece of a path that is looked up in the directory that the walk has come to. -/
structure LookedUp (piece : Text) : Prop where
  not_idle : isIdle piece = false
  ne_up : piece ≠ ['.', '.']
  short : ¬nameLimit < Utf8.size piece

theorem walkWith_of_lookedUp (h : LookedUp piece) (rest : List Text) :
    tree.walkWith follow up (piece :: rest) =
      match tree.get? (piece :: up) with
      | none => if rest = [] then .ok (.vacant (piece :: up)) else .error .notFound
      | some .directory => tree.walkWith follow (piece :: up) rest
      | some (.file content) =>
        if rest = [] then .ok (.file (piece :: up) content) else .error .inaccessible
      | some (.link target) => follow (start target up) (target.pieces ++ rest) := by
  rw [walkWith, if_neg (Bool.eq_false_iff.1 h.not_idle), if_neg h.ne_up]
  exact if_neg h.short

/-- A place where a file is or can be put. -/
structure Free (tree : FileTree) (location : Location) : Prop where
  ne_directory : tree.get? location ≠ some .directory
  ne_link : ∀ target, tree.get? location ≠ some (.link target)

/-- Pieces lead from one place to a place for a file, by way of directories and at most `links` links. -/
inductive Arrives (tree : FileTree) : (links : Nat) → Location → List Text → Location → Prop
  | step {links : Nat} {place place' : Location} {piece : Text} {rest : List Text} {location : Location}
      (hleads : Leads tree place piece place') (hrest : Arrives tree links place' rest location) :
      Arrives tree links place (piece :: rest) location
  | link {links : Nat} {up location : Location} {piece : Text} {rest : List Text} {target : Path}
      (hpiece : LookedUp piece) (hget : tree.get? (piece :: up) = some (.link target))
      (hrest : Arrives tree links (start target up) (target.pieces ++ rest) location) :
      Arrives tree (links + 1) up (piece :: rest) location
  | here {links : Nat} {up : Location} {piece : Text} (hpiece : LookedUp piece)
      (hfree : Free tree (piece :: up)) : Arrives tree links up [piece] (piece :: up)

/-! ### Walks -/

/-- Where a file goes that is written where a walk has led. -/
def Arrival.place? : Arrival → Option Location
  | .file location _ | .vacant location => some location
  | .directory _ => none

theorem eq_nil_of_ite_eq_ok {rest : List Text} {last : Arrival} {e : FileError}
    (h : (if rest = [] then .ok last else .error e : Except FileError Arrival) = .ok arrival) :
    rest = [] ∧ last = arrival := by
  by_cases hrest : rest = []
  · rw [if_pos hrest] at h
    exact ⟨hrest, Except.ok.inj h⟩
  · rw [if_neg hrest] at h
    exact absurd h nofun

/-- A walk to a place for a file passes through directories and links, if the walks behind links do. -/
theorem arrives_of_walkWith (hplace : arrival.place? = some location)
    (hfollow : ∀ {place pieces}, follow place pieces = .ok arrival →
      ∃ fewer, links = fewer + 1 ∧ Arrives tree fewer place pieces location)
    (h : tree.walkWith follow place pieces = .ok arrival) : Arrives tree links place pieces location := by
  induction pieces generalizing place with
  | nil =>
    rw [walkWith, Except.ok.injEq] at h
    simp [← h, Arrival.place?] at hplace
  | cons piece rest ih =>
    by_cases hidle : isIdle piece = true
    · exact .step (.idle hidle) (ih (walkWith_of_idle hidle rest ▸ h))
    rw [Bool.not_eq_true] at hidle
    by_cases hup : piece = ['.', '.']
    · subst hup
      exact .step (.up place) (ih (walkWith_up rest ▸ h))
    by_cases hlong : nameLimit < Utf8.size piece
    · simp [walkWith_of_long hidle hup hlong] at h
    have hpiece : LookedUp piece := ⟨hidle, hup, hlong⟩
    rw [walkWith_of_lookedUp hpiece] at h
    -- A walk ends where there is nothing or a file. It goes on in a directory, and behind a link with `follow`.
    cases hget : tree.get? (piece :: place) with
    | none =>
      simp only [hget] at h
      obtain ⟨rfl, rfl⟩ := eq_nil_of_ite_eq_ok h
      obtain rfl := Option.some.inj hplace
      exact .here hpiece ⟨by simp [hget], by simp [hget]⟩
    | some entry =>
      cases entry with
      | file content =>
        simp only [hget] at h
        obtain ⟨rfl, rfl⟩ := eq_nil_of_ite_eq_ok h
        obtain rfl := Option.some.inj hplace
        exact .here hpiece ⟨by simp [hget], by simp [hget]⟩
      | directory =>
        simp only [hget] at h
        exact .step (.down hidle hup hlong hget) (ih h)
      | link target =>
        simp only [hget] at h
        obtain ⟨fewer, rfl, hrest⟩ := hfollow h
        exact .link hpiece hget hrest

theorem arrives_of_walk (hplace : arrival.place? = some location)
    (h : tree.walk links place pieces = .ok arrival) : Arrives tree links place pieces location := by
  -- A link puts more pieces in front of the rest, so the pieces do not get fewer; the links that are left do.
  induction links generalizing place pieces with
  | zero =>
    refine arrives_of_walkWith hplace (fun hfollow => ?_) h
    exact absurd hfollow nofun
  | succ links ih => exact arrives_of_walkWith hplace (fun hfollow => ⟨links, rfl, ih hfollow⟩) h

theorem exists_walk_eq_walkWith (tree : FileTree) (links : Nat) :
    ∃ follow, tree.walk links = tree.walkWith follow := by
  cases links with
  | zero => exact ⟨_, rfl⟩
  | succ links => exact ⟨_, rfl⟩

theorem Free.walkWith_eq (hfree : Free tree (piece :: up)) (hpiece : LookedUp piece) :
    tree.walkWith follow up [piece] = .ok (tree.arrivalAt (piece :: up)) := by
  rw [walkWith_of_lookedUp hpiece, arrivalAt]
  cases hget : tree.get? (piece :: up) with
  | none => rfl
  | some entry =>
    cases entry with
    | file content => rfl
    | directory => exact absurd hget hfree.ne_directory
    | link target => exact absurd hget (hfree.ne_link target)

/-- Pieces that lead to a place for a file are walked over, and what is there is found. -/
theorem Arrives.walk_eq (h : Arrives tree links place pieces location) :
    tree.walk links place pieces = .ok (tree.arrivalAt location) := by
  induction h with
  | @step links place place' piece rest location hleads hrest ih =>
    obtain ⟨follow, hfollow⟩ := exists_walk_eq_walkWith tree links
    rw [hfollow] at ih ⊢
    rw [hleads.walkWith_cons, ih]
  | link hpiece hget hrest ih =>
    rw [walk, walkWith_of_lookedUp hpiece]
    simp only [hget, ih]
  | @here links up piece hpiece hfree =>
    obtain ⟨follow, hfollow⟩ := exists_walk_eq_walkWith tree links
    rw [hfollow, hfree.walkWith_eq hpiece]

/-! ### The file at the end -/

theorem Arrives.free (h : Arrives tree links place pieces location) : Free tree location := by
  induction h with
  | step _ _ ih => exact ih
  | link _ _ _ ih => exact ih
  | here _ hfree => exact hfree

theorem Free.not_isFixed (h : Free tree location) : ¬tree.IsFixed location :=
  mt IsFixed.get?_eq h.ne_directory

theorem Free.get?_insert_self (h : Free tree location) :
    (tree.insert location (.file content)).get? location = some (.file content) := by
  rw [get?_insert h.not_isFixed, if_pos rfl]

/-- Directories and links stay where they are. -/
theorem Free.get?_insert_of_eq (h : Free tree location) {entry : Entry} {other : Location}
    (hentry : entry = .directory ∨ ∃ target, entry = .link target) (hget : tree.get? other = some entry) :
    (tree.insert location (.file content)).get? other = some entry := by
  have hother : other ≠ location := by
    rintro rfl
    rcases hentry with rfl | ⟨target, rfl⟩
    · exact h.ne_directory hget
    · exact h.ne_link target hget
  rw [get?_insert h.not_isFixed, if_neg hother, hget]

theorem Leads.insert {place' : Location} (h : Leads tree place piece place') (hfree : Free tree location) :
    Leads (tree.insert location (.file content)) place piece place' := by
  cases h with
  | idle hidle => exact .idle hidle
  | up => exact .up place
  | down hidle hup hshort hget => exact .down hidle hup hshort (hfree.get?_insert_of_eq (.inl rfl) hget)

theorem Free.insert (h : Free tree location) : Free (tree.insert location (.file content)) location :=
  ⟨by simp [h.get?_insert_self], by simp [h.get?_insert_self]⟩

/-- The pieces lead to the same place after a file has been put there. -/
theorem Arrives.insert (h : Arrives tree links place pieces location) :
    Arrives (tree.insert location (.file content)) links place pieces location := by
  induction h with
  | step hleads hrest ih => exact .step (hleads.insert hrest.free) ih
  | link hpiece hget hrest ih => exact .link hpiece (hrest.free.get?_insert_of_eq (.inr ⟨_, rfl⟩) hget) ih
  | here hpiece hfree => exact .here hpiece hfree.insert

/-! ### Paths -/

theorem exists_resolve_of_destination? (h : tree.destination? path = some location) :
    ∃ arrival, tree.resolve path = .ok arrival ∧ arrival.place? = some location := by
  rw [destination?] at h
  split at h
  · rename_i place content hresolve
    exact ⟨_, hresolve, h⟩
  · rename_i place hresolve
    exact ⟨_, hresolve, h⟩
  · simp at h

theorem arrives_of_destination? (h : tree.destination? path = some location) :
    path.text ≠ [] ∧ ¬('\x00' ∈ path.text ∨ pathLimit < Utf8.size path.text) ∧
      Arrives tree linkLimit (start path tree.home) path.pieces location := by
  obtain ⟨arrival, hresolve, hplace⟩ := exists_resolve_of_destination? h
  obtain ⟨hne, hbarred, hwalk⟩ := walk_of_resolve hresolve
  exact ⟨hne, hbarred, arrives_of_walk hplace hwalk⟩

theorem free_of_destination? (h : tree.destination? path = some location) : Free tree location :=
  (arrives_of_destination? h).2.2.free

/-- The path leads to the file after it has been written. -/
theorem resolve_insert (h : tree.destination? path = some location) (content : Bytes) :
    (tree.insert location (.file content)).resolve path = .ok (.file location content) := by
  obtain ⟨hne, hbarred, harrives⟩ := arrives_of_destination? h
  rw [resolve, if_neg hne, if_neg hbarred, home_insert, harrives.insert.walk_eq, arrivalAt,
    harrives.free.get?_insert_self]

/-- What is written at a path is what is read there. -/
theorem read_insert (h : tree.destination? path = some location) (content : Bytes) :
    (tree.insert location (.file content)).read path = .ok content := by
  rw [read, resolve_insert h]

end UrReplay.FileTree
