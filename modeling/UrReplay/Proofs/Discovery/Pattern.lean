import UrReplay.Discovery.Basic
import UrReplay.Proofs.Discovery.Language
/-!
# UrReplay.Proofs.Discovery.Pattern

Patterns with one star. Such a pattern accepts a name if what stands before the star begins it and what
stands after the star ends it, without overlap (`accepts_iff`). Both usual patterns are of this kind.
-/

namespace UrReplay.Discovery

open Pattern (accepts_iff_woven)

variable {name : Text}

theorem accepts_iff {first last : Text} (hfirst : '*' ∉ first) (hlast : '*' ∉ last) :
    (Pattern.mk (first ++ '*' :: last)).accepts name = true ↔
      ∃ middle, name = first ++ (middle ++ last) := by
  have hpieces : Text.split '*' (first ++ '*' :: last) = [first, last] := by
    rw [Text.split_append, Text.split_of_not_mem hfirst, Text.split_of_not_mem hlast]
    rfl
  rw [accepts_iff_woven, hpieces, woven_cons]
  constructor
  · intro h
    obtain ⟨_, last', rfl, ⟨middle, rfl⟩, hlast'⟩ := h
    exact ⟨middle, by rw [woven_singleton.1 hlast']⟩
  · intro h
    obtain ⟨middle, rfl⟩ := h
    exact ⟨_, last, rfl, List.suffix_append middle last, woven_singleton.2 rfl⟩

/-- The end of the names that the usual primary pattern accepts. -/
def primaryEnd : Text := "UR_fragments.txt".toList

/-- The beginning of the names that the usual legacy pattern accepts. -/
def legacyStart : Text := "fragments_".toList

/-- The end of the names that the usual legacy pattern accepts. -/
def legacyEnd : Text := ".txt".toList

theorem accepts_primary_iff :
    Patterns.standard.primary.accepts name = true ↔ primaryEnd <:+ name := by
  have htext : Patterns.standard.primary = ⟨[] ++ '*' :: primaryEnd⟩ := by decide
  rw [htext, accepts_iff (by decide) (by decide)]
  exact exists_congr fun middle => eq_comm

theorem accepts_legacy_iff :
    Patterns.standard.legacy.accepts name = true ↔
      ∃ middle, name = legacyStart ++ (middle ++ legacyEnd) := by
  have htext : Patterns.standard.legacy = ⟨legacyStart ++ '*' :: legacyEnd⟩ := by decide
  rw [htext, accepts_iff (by decide) (by decide)]

end UrReplay.Discovery
