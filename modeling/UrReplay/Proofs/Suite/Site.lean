import UrReplay.Proofs.Discovery.Captures
import UrReplay.Proofs.Files.Write
import UrReplay.Proofs.Golden.Naming
/-!
# UrReplay.Proofs.Suite.Site

Capture files and their golden files, side by side in a directory. Golden files with the usual names keep
`Apart` from the captures that are found there (`apart_captureNames`). So writing golden files changes no
capture, and none is found anew (`captureNames_overlay`).
-/

namespace UrReplay.Suite

open Discovery (captureNames matchingNames legacyEnd Patterns)
open FileTree (DirectoryAt Overlay)
open Golden (Naming)
open UrReplay.Path (IsName)

variable {naming : Naming} {names : List Text} {name other : Text} {listing : List Listed}

/-- The golden files for captures with these names are no captures, and are different for different
captures. -/
structure Apart (naming : Naming) (names : List Text) : Prop where
  nodup : names.Nodup
  isName : ∀ name ∈ names, IsName name
  isName_goldenName : ∀ name ∈ names, IsName (naming.goldenName name)
  goldenName_injOn : ∀ name ∈ names, ∀ other ∈ names,
    naming.goldenName name = naming.goldenName other → name = other
  goldenName_not_mem : ∀ name ∈ names, naming.goldenName name ∉ names

theorem Apart.pairwise_goldenName (h : Apart naming names) : names.Pairwise fun name other =>
    name ∈ names ∧ other ∈ names ∧ naming.goldenName name ≠ naming.goldenName other := by
  refine (List.Pairwise.and_mem.1 h.nodup).imp ?_
  intro name other ⟨hname, hother, hne⟩
  exact ⟨hname, hother, fun heq => hne (h.goldenName_injOn name hname other hother heq)⟩

/-! ### The usual names -/

theorem isName_goldenName (hend : legacyEnd <:+ name) (hslash : '/' ∉ name) :
    IsName (Naming.standard.goldenName name) := by
  refine .of_length (Golden.slash_not_mem_goldenName hend hslash) ?_
  rcases Golden.suffix_goldenName hend with hend | hend
  · exact Nat.lt_of_lt_of_le (by decide) hend.length_le
  · exact Nat.lt_of_lt_of_le (by decide) hend.length_le

/-- No pattern that counts accepts the golden file for a capture. -/
theorem not_accepts_goldenName (h : name ∈ captureNames .standard listing) :
    Patterns.standard.primary.accepts (Naming.standard.goldenName name) = false ∧
      (matchingNames Patterns.standard.primary listing = [] →
        Patterns.standard.legacy.accepts (Naming.standard.goldenName name) = false) := by
  have hend := Discovery.legacyEnd_suffix_of_mem_captureNames h
  refine ⟨Golden.not_accepts_primary_goldenName hend, fun hnone => ?_⟩
  -- The legacy pattern does accept `fragments_1.UR_object.txt`, but beside the capture
  -- `fragments_1.UR_fragments.txt` it does not count.
  exact Golden.not_accepts_legacy_goldenName hend (Discovery.accepts_primary_eq_false hnone h)

theorem goldenName_not_mem_captureNames (h : name ∈ captureNames .standard listing) :
    Naming.standard.goldenName name ∉ captureNames .standard listing := by
  obtain ⟨hprimary, hlegacy⟩ := not_accepts_goldenName h
  intro hmem
  rw [Discovery.captureNames_eq] at hmem
  split at hmem
  · rename_i hnone
    exact absurd (Discovery.mem_matchingNames.1 hmem).1 (Bool.eq_false_iff.1 (hlegacy hnone))
  · exact absurd (Discovery.mem_matchingNames.1 hmem).1 (Bool.eq_false_iff.1 hprimary)

theorem apart_captureNames (hnodup : (listing.map (·.name)).Nodup)
    (hslash : ∀ name, (⟨name, true⟩ : Listed) ∈ listing → '/' ∉ name) :
    Apart .standard (captureNames .standard listing) := by
  have hend {name : Text} (h : name ∈ captureNames .standard listing) : legacyEnd <:+ name :=
    Discovery.legacyEnd_suffix_of_mem_captureNames h
  have hplain {name : Text} (h : name ∈ captureNames .standard listing) : '/' ∉ name :=
    hslash _ (Discovery.listed_of_mem_captureNames h)
  refine ⟨Discovery.nodup_captureNames hnodup, fun name h => ?_, fun name h => ?_,
    fun name h other h' heq => ?_, fun name h => ?_⟩
  · exact .of_length (hplain h) (Nat.lt_of_lt_of_le (by decide) (hend h).length_le)
  · exact isName_goldenName (hend h) (hplain h)
  · exact Golden.goldenName_injective (hend h) (hend h') heq
  · exact goldenName_not_mem_captureNames h

/-! ### The directory -/

variable {tree t : FileTree} {directory : Path} {location : Location}

/-- Where the golden files for captures go that are in the directory at a location. -/
def goldenPlaces (naming : Naming) (location : Location) (names : List Text) : List Location :=
  names.map fun name => naming.goldenName name :: location

/-- Captures with these names are in a directory of a tree, and golden files keep apart from them. -/
structure Site (naming : Naming) (tree : FileTree) (directory : Path) (location : Location)
    (names : List Text) : Prop where
  apart : Apart naming names
  directoryAt : tree.DirectoryAt directory location

namespace Site

variable {place : Location}

theorem nameIn_join (h : Site naming tree directory location names) (hname : name ∈ names) :
    (directory.join name).NameIn directory name :=
  Path.nameIn_join (h.apart.isName name hname) directory

/-- The golden file for a capture is a name in the same directory. -/
theorem nameIn_goldenPath (h : Site naming tree directory location names) (hname : name ∈ names) :
    (naming.goldenPath (directory.join name)).NameIn directory (naming.goldenName name) := by
  have hcapture := h.nameIn_join hname
  rw [Naming.goldenPath, hcapture.fileName?]
  exact hcapture.withFileName (h.apart.isName_goldenName name hname)

theorem mem_goldenPlaces_of_destination? (h : Site naming tree directory location names)
    (hname : name ∈ names)
    (hplace : tree.destination? (naming.goldenPath (directory.join name)) = some place) :
    place ∈ goldenPlaces naming location names := by
  obtain ⟨rfl, -, -⟩ := h.directoryAt.of_destination? (h.nameIn_goldenPath hname) hplace
  exact List.mem_map_of_mem hname

/-- No golden file goes where a capture is. -/
theorem not_mem_goldenPlaces (h : Site naming tree directory location names) (hname : name ∈ names) :
    name :: location ∉ goldenPlaces naming location names := by
  intro hplace
  obtain ⟨other, hother, heq⟩ := List.mem_map.1 hplace
  exact h.apart.goldenName_not_mem other hother ((List.cons.inj heq).1 ▸ hname)

end Site

theorem apart_children (hplain : tree.Plain) (location : Location) :
    Apart .standard (captureNames .standard (tree.children location)) := by
  refine apart_captureNames (tree.nodup_map_name_children location) fun name hlisted => ?_
  obtain ⟨content, hget⟩ := FileTree.file_mem_children_iff.1 hlisted
  exact hplain.slash_not_mem_name hget

/-- After golden files have been written the same captures are found. -/
theorem captureNames_overlay
    (h : Overlay tree t
      (goldenPlaces .standard location (captureNames .standard (tree.children location)))) :
    captureNames .standard (t.children location) = captureNames .standard (tree.children location) := by
  -- Only golden files differ, and no pattern that counts accepts one.
  have hsame {name : Text} (hname : ∀ capture ∈ captureNames .standard (tree.children location),
      name ≠ Naming.standard.goldenName capture) :
      (⟨name, true⟩ : Listed) ∈ tree.children location ↔ ⟨name, true⟩ ∈ t.children location := by
    rw [FileTree.file_mem_children_iff, FileTree.file_mem_children_iff, h.elsewhere]
    intro hplace
    obtain ⟨capture, hcapture, hgolden⟩ := List.mem_map.1 hplace
    exact hname capture hcapture (List.cons.inj hgolden).1.symm
  refine (Discovery.captureNames_congr (tree.nodup_map_name_children location)
    (t.nodup_map_name_children location) (fun name hname => ?_) fun hnone name hname => ?_).symm
  · refine hsame fun capture hcapture heq => ?_
    rw [heq, (not_accepts_goldenName hcapture).1] at hname
    exact absurd hname Bool.false_ne_true
  · refine hsame fun capture hcapture heq => ?_
    rw [heq, (not_accepts_goldenName hcapture).2 hnone] at hname
    exact absurd hname Bool.false_ne_true

end UrReplay.Suite
