import Mathlib
import UrReplay.Proofs.Files.Walk
/-!
# UrReplay.Proofs.Files.Listing

The entries of a tree and the listing of its directories, seen through `get?`. A directory lists each of
its names once (`nodup_map_name_children`), and as files those that are (`file_mem_children_iff`).
-/

namespace UrReplay.FileTree

variable {tree : FileTree} {location : Location} {entry : Entry} {name : Text}

/-! ### Listings -/

theorem nodup_map_name_children (tree : FileTree) (location : Location) :
    ((tree.children location).map (·.name)).Nodup := by
  have hentries : tree.entries.Pairwise fun entry other => entry.1 ≠ other.1 :=
    List.pairwise_map.1 tree.nodup
  refine List.pairwise_map.2 (hentries.filterMap _ ?_)
  rintro ⟨place, entry⟩ ⟨place', entry'⟩ hne listed hlisted listed' hlisted' hname
  cases place with
  | nil => exact absurd hlisted nofun
  | cons name up =>
    cases place' with
    | nil => exact absurd hlisted' nofun
    | cons name' up' =>
      dsimp only at hlisted hlisted' hne
      split at hlisted
      · split at hlisted'
        · rename_i hup hup'
          obtain rfl := Option.some.inj hlisted
          obtain rfl := Option.some.inj hlisted'
          rw [hup, hup'] at hne
          exact hne (congrArg (· :: location) hname)
        · exact absurd hlisted' nofun
      · exact absurd hlisted nofun

theorem file_mem_children_iff :
    (⟨name, true⟩ : Listed) ∈ tree.children location ↔
      ∃ content, tree.get? (name :: location) = some (.file content) := by
  simp only [get?_eq_some_iff (List.cons_ne_nil name location)]
  rw [children, List.mem_filterMap]
  constructor
  · rintro ⟨⟨place, entry⟩, hmem, hlisted⟩
    cases place with
    | nil => exact absurd hlisted nofun
    | cons name' up =>
      dsimp only at hlisted
      split at hlisted
      · rename_i hup
        obtain ⟨hname, hfile⟩ := Listed.mk.inj (Option.some.inj hlisted)
        subst hup hname
        cases entry with
        | file content => exact ⟨content, hmem⟩
        | directory => exact absurd hfile nofun
        | link target => exact absurd hfile nofun
      · exact absurd hlisted nofun
  · rintro ⟨content, hmem⟩
    exact ⟨_, hmem, if_pos rfl⟩

/-! ### Plain trees -/

/-- There are only files and directories, and no slash is part of a name. -/
structure Plain (tree : FileTree) : Prop where
  not_link : ∀ entry ∈ tree.entries, (entry.2 matches .link _) = false
  slash_not_mem : ∀ entry ∈ tree.entries, ∀ name ∈ entry.1, '/' ∉ name

namespace Plain

theorem linkFree (h : tree.Plain) : tree.LinkFree := by
  intro location target hget
  cases location with
  | nil => exact absurd hget nofun
  | cons name up =>
    have hmem := (get?_eq_some_iff (List.cons_ne_nil name up)).1 hget
    exact absurd (h.not_link _ hmem) nofun

theorem slash_not_mem_name (h : tree.Plain) (hget : tree.get? (name :: location) = some entry) :
    '/' ∉ name :=
  h.slash_not_mem _ ((get?_eq_some_iff (List.cons_ne_nil name location)).1 hget) name List.mem_cons_self

end Plain

end UrReplay.FileTree
