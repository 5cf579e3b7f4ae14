import UrReplay.Proofs.Discovery.Pattern
import UrReplay.Proofs.Files.Listing
/-!
# UrReplay.Proofs.Discovery.Captures

What discovery finds: the names of some files in a directory (`captures_eq_ok`). They are determined by
which files there are with names that a pattern accepts, and not by the order of the listing
(`matchingNames_congr`, `captureNames_congr`).
-/

namespace UrReplay.Discovery

variable {pattern : Pattern} {patterns : Patterns} {listing listing' : List Listed} {name : Text}
  {directory : Path} {files : List Path}

theorem mem_matchingNames :
    name ∈ matchingNames pattern listing ↔ pattern.accepts name = true ∧ ⟨name, true⟩ ∈ listing := by
  rw [matchingNames, (List.mergeSort_perm _ _).mem_iff, List.mem_map]
  constructor
  · rintro ⟨⟨name, isFile⟩, hmem, rfl⟩
    obtain ⟨hlisted, hcapture⟩ := List.mem_filter.1 hmem
    obtain ⟨hfile, haccepts⟩ := Bool.and_eq_true_iff.1 hcapture
    have hfile : isFile = true := hfile
    subst hfile
    exact ⟨haccepts, hlisted⟩
  · rintro ⟨haccepts, hlisted⟩
    exact ⟨⟨name, true⟩, List.mem_filter.2 ⟨hlisted, haccepts⟩, rfl⟩

theorem nodup_matchingNames (h : (listing.map (·.name)).Nodup) : (matchingNames pattern listing).Nodup :=
  (List.mergeSort_perm _ _).nodup_iff.2 (h.sublist (List.filter_sublist.map _))

theorem pairwise_matchingNames (pattern : Pattern) (listing : List Listed) :
    (matchingNames pattern listing).Pairwise fun name other => Text.le name other = true := by
  have htrans (s t u : Text) : s.le t = true → t.le u = true → s.le u = true := Text.le_trans
  exact List.pairwise_mergeSort htrans Text.le_total _

/-- Two listings with the same files among the names that a pattern accepts give the same names. -/
theorem matchingNames_congr (h : (listing.map (·.name)).Nodup) (h' : (listing'.map (·.name)).Nodup)
    (hfiles : ∀ name, pattern.accepts name = true →
      ((⟨name, true⟩ : Listed) ∈ listing ↔ ⟨name, true⟩ ∈ listing')) :
    matchingNames pattern listing = matchingNames pattern listing' := by
  have hperm : (matchingNames pattern listing).Perm (matchingNames pattern listing') := by
    rw [List.perm_ext_iff_of_nodup (nodup_matchingNames h) (nodup_matchingNames h')]
    intro name
    rw [mem_matchingNames, mem_matchingNames]
    exact and_congr_right (hfiles name)
  exact hperm.eq_of_pairwise (fun _ _ _ _ => Text.le_antisymm) (pairwise_matchingNames pattern listing)
    (pairwise_matchingNames pattern listing')

/-! ### Captures -/

theorem captureNames_eq (patterns : Patterns) (listing : List Listed) :
    captureNames patterns listing =
      if matchingNames patterns.primary listing = [] then matchingNames patterns.legacy listing
      else matchingNames patterns.primary listing := by
  rw [captureNames]
  split
  · rename_i h
    rw [if_pos h]
  · rename_i h
    rw [if_neg h]

theorem listed_of_mem_captureNames (h : name ∈ captureNames patterns listing) :
    (⟨name, true⟩ : Listed) ∈ listing := by
  rw [captureNames_eq] at h
  split at h
  · exact (mem_matchingNames.1 h).2
  · exact (mem_matchingNames.1 h).2

/-- Where the primary pattern accepts no file it accepts no capture. -/
theorem accepts_primary_eq_false (hnone : matchingNames patterns.primary listing = [])
    (h : name ∈ captureNames patterns listing) : patterns.primary.accepts name = false := by
  rw [Bool.eq_false_iff]
  intro haccepts
  have hmem := mem_matchingNames.2 ⟨haccepts, listed_of_mem_captureNames h⟩
  rw [hnone] at hmem
  exact List.not_mem_nil hmem

/-- The legacy pattern counts only where the primary one accepts no file. -/
theorem captureNames_congr (h : (listing.map (·.name)).Nodup) (h' : (listing'.map (·.name)).Nodup)
    (hprimary : ∀ name, patterns.primary.accepts name = true →
      ((⟨name, true⟩ : Listed) ∈ listing ↔ ⟨name, true⟩ ∈ listing'))
    (hlegacy : matchingNames patterns.primary listing = [] →
      ∀ name, patterns.legacy.accepts name = true →
        ((⟨name, true⟩ : Listed) ∈ listing ↔ ⟨name, true⟩ ∈ listing')) :
    captureNames patterns listing = captureNames patterns listing' := by
  have hsame := matchingNames_congr h h' hprimary
  rw [captureNames_eq, captureNames_eq, ← hsame]
  split
  · rename_i hnone
    exact matchingNames_congr h h' (hlegacy hnone)
  · rfl

theorem nodup_captureNames (h : (listing.map (·.name)).Nodup) : (captureNames patterns listing).Nodup := by
  rw [captureNames_eq]
  split
  · exact nodup_matchingNames h
  · exact nodup_matchingNames h

/-- Captures of the usual names are text files. -/
theorem legacyEnd_suffix_of_mem_captureNames (h : name ∈ captureNames .standard listing) :
    legacyEnd <:+ name := by
  rw [captureNames_eq] at h
  split at h
  · obtain ⟨middle, rfl⟩ := accepts_legacy_iff.1 (mem_matchingNames.1 h).1
    rw [← List.append_assoc]
    exact List.suffix_append _ legacyEnd
  · have hend : legacyEnd <:+ primaryEnd := by decide
    exact hend.trans (accepts_primary_iff.1 (mem_matchingNames.1 h).1)

theorem captures_ok (patterns : Patterns) (directory : Path) (listing : List Listed) :
    captures patterns directory (.ok listing) =
      if captureNames patterns listing = [] then .error (.noTestFiles directory)
      else .ok ((captureNames patterns listing).map directory.join) := by
  rw [captures]
  split
  · rename_i hnone
    rw [if_pos hnone]
  · rename_i hsome
    rw [if_neg hsome]

/-- Where captures are found there is a directory, and they are files in it. -/
theorem captures_eq_ok {tree : FileTree}
    (h : captures patterns directory (tree.list directory) = .ok files) :
    ∃ location, tree.resolve directory = .ok (.directory location) ∧
      captureNames patterns (tree.children location) ≠ [] ∧
      files = (captureNames patterns (tree.children location)).map directory.join := by
  have hempty : captureNames patterns [] = [] := by simp [captureNames, matchingNames]
  rw [FileTree.list] at h
  cases hresolve : tree.resolve directory with
  | error e =>
    rw [hresolve] at h
    cases e <;> exact absurd h nofun
  | ok arrival =>
    rw [hresolve] at h
    cases arrival with
    | vacant place => exact absurd h nofun
    | file place content =>
      rw [captures_ok, if_pos hempty] at h
      exact absurd h nofun
    | directory location =>
      rw [captures_ok] at h
      split at h
      · exact absurd h nofun
      · rename_i hsome
        exact ⟨location, rfl, hsome, (Except.ok.inj h).symm⟩

theorem captures_of_directory {tree : FileTree} {location : Location}
    (hdirectory : tree.resolve directory = .ok (.directory location))
    (hsome : captureNames patterns (tree.children location) ≠ []) :
    captures patterns directory (tree.list directory) =
      .ok ((captureNames patterns (tree.children location)).map directory.join) := by
  have hlist : tree.list directory = .ok (tree.children location) := by
    rw [FileTree.list, hdirectory]
  rw [hlist, captures_ok, if_neg hsome]

end UrReplay.Discovery
