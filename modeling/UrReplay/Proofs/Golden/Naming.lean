import UrReplay.Golden.Naming
import UrReplay.Proofs.Discovery.Pattern
/-!
# UrReplay.Proofs.Golden.Naming

The usual names of golden files, for names that end in `.txt` as those of captures do. Different captures
have golden files of different names (`goldenName_injective`), and no golden file is named like a capture
(`not_accepts_primary_goldenName`, `not_accepts_legacy_goldenName`).
-/

namespace UrReplay.Golden

open Discovery (Patterns primaryEnd legacyEnd accepts_primary_iff accepts_legacy_iff)

variable {name other : Text}

/-- The end of the golden files' names beside fragments. -/
def objectEnd : Text := ".UR_object.txt".toList

/-- The end of the other golden files' names. -/
def expectedEnd : Text := ".expected".toList

/-- How the golden file for a capture is named: an object beside fragments, an expectation else. -/
inductive Renamed : Text → Text → Prop
  | object (stem : Text) : Renamed (stem ++ '.' :: primaryEnd) (stem ++ objectEnd)
  | expected (stem : Text) : Renamed (stem ++ legacyEnd) (stem ++ expectedEnd)

/-- Neither of two texts that end the same one can end differently from the other. -/
theorem not_both_suffix {s t u : Text} (hs : s <:+ u) (ht : t <:+ u) (hlength : s.length ≤ t.length)
    (hne : ¬s <:+ t) : False :=
  hne (List.suffix_of_suffix_length_le hs ht hlength)

theorem renamed_goldenName (h : legacyEnd <:+ name) : Renamed name (Naming.standard.goldenName name) := by
  obtain ⟨stem, rfl⟩ := h
  have hrules : Naming.standard.rules = [⟨'.' :: primaryEnd, objectEnd⟩, ⟨legacyEnd, expectedEnd⟩] := by
    decide
  rw [Naming.goldenName, hrules, List.findSome?_cons, SuffixRule.rename?]
  cases hfragments : ('.' :: primaryEnd).isSuffixOf? (stem ++ legacyEnd) with
  | some stem' =>
    rw [← List.append_eq_of_isSuffixOf?_eq_some hfragments]
    exact .object stem'
  | none =>
    have hsuffix : legacyEnd.isSuffixOf? (stem ++ legacyEnd) = some stem :=
      List.isSuffixOf?_eq_some_iff_append_eq.2 rfl
    rw [Option.map_none, List.findSome?_cons, SuffixRule.rename?, hsuffix]
    exact .expected stem

theorem goldenName_injective (hname : legacyEnd <:+ name) (hother : legacyEnd <:+ other)
    (h : Naming.standard.goldenName name = Naming.standard.goldenName other) : name = other := by
  have hobject {stem stem' : Text} (heq : stem ++ objectEnd = stem' ++ expectedEnd) : False :=
    not_both_suffix (List.suffix_append stem' expectedEnd) (heq ▸ List.suffix_append stem objectEnd)
      (by decide) (by decide)
  have hr := renamed_goldenName hname
  have hr' := renamed_goldenName hother
  rw [← h] at hr'
  generalize Naming.standard.goldenName name = golden at hr hr'
  cases hr with
  | object stem =>
    generalize hgolden : stem ++ objectEnd = golden at hr'
    cases hr' with
    | object stem' => rw [List.append_cancel_right hgolden]
    | expected stem' => exact (hobject hgolden).elim
  | expected stem =>
    generalize hgolden : stem ++ expectedEnd = golden at hr'
    cases hr' with
    | object stem' => exact (hobject hgolden.symm).elim
    | expected stem' => rw [List.append_cancel_right hgolden]

/-! ### Golden files are no captures -/

theorem suffix_goldenName (hname : legacyEnd <:+ name) :
    objectEnd <:+ Naming.standard.goldenName name ∨ expectedEnd <:+ Naming.standard.goldenName name := by
  have hr := renamed_goldenName hname
  generalize Naming.standard.goldenName name = golden at hr
  cases hr with
  | object stem => exact .inl (List.suffix_append stem objectEnd)
  | expected stem => exact .inr (List.suffix_append stem expectedEnd)

/-- Only beside fragments, which the primary pattern accepts, there are objects. -/
theorem expectedEnd_suffix_goldenName (hname : legacyEnd <:+ name)
    (hprimary : Patterns.standard.primary.accepts name = false) :
    expectedEnd <:+ Naming.standard.goldenName name := by
  rw [Bool.eq_false_iff, ne_eq, accepts_primary_iff] at hprimary
  have hr := renamed_goldenName hname
  generalize Naming.standard.goldenName name = golden at hr
  cases hr with
  | object stem =>
    have hfragments : primaryEnd <:+ '.' :: primaryEnd := List.suffix_cons '.' primaryEnd
    exact absurd (hfragments.trans (List.suffix_append stem _)) hprimary
  | expected stem => exact List.suffix_append stem expectedEnd

theorem not_accepts_primary_goldenName (hname : legacyEnd <:+ name) :
    Patterns.standard.primary.accepts (Naming.standard.goldenName name) = false := by
  rw [Bool.eq_false_iff, ne_eq, accepts_primary_iff]
  intro hprimary
  rcases suffix_goldenName hname with hend | hend
  · exact not_both_suffix hend hprimary (by decide) (by decide)
  · exact not_both_suffix hend hprimary (by decide) (by decide)

/-- The golden file for a capture that the primary pattern does not accept is none that the legacy pattern
accepts. -/
theorem not_accepts_legacy_goldenName (hname : legacyEnd <:+ name)
    (hprimary : Patterns.standard.primary.accepts name = false) :
    Patterns.standard.legacy.accepts (Naming.standard.goldenName name) = false := by
  rw [Bool.eq_false_iff, ne_eq, accepts_legacy_iff]
  rintro ⟨middle, hlegacy⟩
  have hend : legacyEnd <:+ Naming.standard.goldenName name := by
    rw [hlegacy, ← List.append_assoc]
    exact List.suffix_append _ legacyEnd
  exact not_both_suffix hend (expectedEnd_suffix_goldenName hname hprimary) (by decide) (by decide)

/-! ### Names of files -/

theorem slash_not_mem_goldenName (hname : legacyEnd <:+ name) (h : '/' ∉ name) :
    '/' ∉ Naming.standard.goldenName name := by
  have hr := renamed_goldenName hname
  generalize Naming.standard.goldenName name = golden at hr
  cases hr with
  | object stem =>
    rw [List.mem_append, not_or] at h ⊢
    exact ⟨h.1, by decide⟩
  | expected stem =>
    rw [List.mem_append, not_or] at h ⊢
    exact ⟨h.1, by decide⟩

end UrReplay.Golden
