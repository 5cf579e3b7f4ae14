import Mathlib
import UrReplay.Discovery.Pattern
import UrReplay.Proofs.Text.Lines
/-!
# UrReplay.Proofs.Discovery.Language

The names that a pattern accepts (`accepts_iff_woven`). They are the pieces of the pattern between its stars
with any texts in the gaps between them.

Taking a piece at its first occurrence loses no match. What follows any other occurrence is an end of what
follows the first one (`exists_afterFirst?`), and the star in front of the next piece takes what is more. So
the induction is on the pieces, for what follows a star (`acceptsAfterStar_iff`).
-/

namespace UrReplay.Discovery

variable {piece next name rest after t : Text} {pieces more : List Text}

/-- Pieces with texts in the gaps between them. -/
def weave : List Text → List Text → Text
  | [], _ => []
  | piece :: _, [] => piece
  | piece :: pieces, gap :: gaps => piece ++ (gap ++ weave pieces gaps)

/-- A text is made of the pieces, in order, and of a text for each gap between them. -/
def Woven (pieces : List Text) (t : Text) : Prop :=
  ∃ gaps : List Text, gaps.length + 1 = pieces.length ∧ t = weave pieces gaps

/-! ### Woven texts -/

theorem woven_singleton : Woven [piece] t ↔ t = piece := by
  constructor
  · intro h
    obtain ⟨gaps, hlength, rfl⟩ := h
    obtain rfl : gaps = [] := by simpa using hlength
    rfl
  · rintro rfl
    exact ⟨[], rfl, rfl⟩

theorem woven_cons :
    Woven (piece :: next :: more) t ↔
      ∃ rest last, t = piece ++ rest ∧ last <:+ rest ∧ Woven (next :: more) last := by
  constructor
  · intro h
    obtain ⟨gaps, hlength, rfl⟩ := h
    cases gaps with
    | nil => simp at hlength
    | cons gap gaps =>
      exact ⟨_, _, rfl, List.suffix_append gap _, gaps, by simpa using hlength, rfl⟩
  · intro h
    obtain ⟨_, _, rfl, ⟨gap, rfl⟩, gaps, hlength, rfl⟩ := h
    exact ⟨gap :: gaps, by simpa using hlength, rfl⟩

namespace Pattern

/-! ### First occurrences -/

theorem eq_of_afterFirst? (h : afterFirst? piece t = some after) : piece ++ after <:+ t := by
  induction t with
  | nil =>
    rw [afterFirst?, Option.ite_none_right_eq_some] at h
    obtain ⟨rfl, hafter⟩ := h
    obtain rfl := Option.some.inj hafter
    exact List.suffix_refl []
  | cons c t ih =>
    rw [afterFirst?] at h
    split at h
    · rename_i hprefix
      obtain rfl := Option.some.inj h
      rw [List.append_eq_of_isPrefixOf?_eq_some hprefix]
    · exact (ih h).trans (List.suffix_cons c t)

/-- What follows an occurrence of a piece is an end of what follows its first occurrence. -/
theorem exists_afterFirst? (h : piece ++ rest <:+ t) :
    ∃ after, afterFirst? piece t = some after ∧ rest <:+ after := by
  induction t with
  | nil =>
    obtain ⟨rfl, rfl⟩ := List.append_eq_nil_iff.1 (List.suffix_nil.1 h)
    exact ⟨[], rfl, List.suffix_refl []⟩
  | cons c t ih =>
    rw [afterFirst?]
    split
    · rename_i after hprefix
      have hfirst := List.append_eq_of_isPrefixOf?_eq_some hprefix
      refine ⟨after, rfl, List.suffix_of_suffix_length_le ((List.suffix_append piece rest).trans h)
        (hfirst ▸ List.suffix_append piece after) ?_⟩
      have hlength := h.length_le
      rw [← hfirst, List.length_append, List.length_append] at hlength
      omega
    · rename_i hnone
      rcases List.suffix_cons_iff.1 h with hwhole | hlater
      · rw [List.isPrefixOf?_eq_some_iff_append_eq.2 hwhole] at hnone
        exact absurd hnone nofun
      · exact ih hlater

/-! ### Accepted names -/

theorem acceptsAfterStar_iff :
    acceptsAfterStar (piece :: pieces) rest = true ↔ ∃ t, t <:+ rest ∧ Woven (piece :: pieces) t := by
  induction pieces generalizing piece rest with
  | nil => simp [acceptsAfterStar, woven_singleton]
  | cons next more ih =>
    rw [acceptsAfterStar]
    constructor
    · intro h
      split at h
      · rename_i after hafter
        obtain ⟨t, ht, hwoven⟩ := ih.1 h
        exact ⟨piece ++ after, eq_of_afterFirst? hafter, woven_cons.2 ⟨after, t, rfl, ht, hwoven⟩⟩
      · exact absurd h Bool.false_ne_true
    · intro h
      obtain ⟨_, ht, hwoven⟩ := h
      obtain ⟨other, t, rfl, hother, hwoven⟩ := woven_cons.1 hwoven
      obtain ⟨after, hafter, hend⟩ := exists_afterFirst? ht
      rw [hafter]
      exact ih.2 ⟨t, hother.trans hend, hwoven⟩

theorem acceptsPieces_iff (hne : pieces ≠ []) : acceptsPieces pieces name = true ↔ Woven pieces name := by
  match pieces, hne with
  | [only], _ =>
    rw [acceptsPieces, beq_iff_eq, woven_singleton, eq_comm]
  | first :: next :: more, _ =>
    rw [acceptsPieces, woven_cons]
    constructor
    · intro h
      split at h
      · rename_i rest hprefix
        obtain ⟨t, ht, hwoven⟩ := acceptsAfterStar_iff.1 h
        exact ⟨rest, t, (List.append_eq_of_isPrefixOf?_eq_some hprefix).symm, ht, hwoven⟩
      · exact absurd h Bool.false_ne_true
    · intro h
      obtain ⟨rest, t, rfl, ht, hwoven⟩ := h
      rw [List.isPrefixOf?_eq_some_iff_append_eq.2 rfl]
      exact acceptsAfterStar_iff.2 ⟨t, ht, hwoven⟩

/-- A pattern accepts the names that its pieces are woven into. -/
theorem accepts_iff_woven {pattern : Pattern} :
    pattern.accepts name = true ↔ Woven (Text.split '*' pattern.text) name :=
  acceptsPieces_iff (Text.split_ne_nil '*' pattern.text)

end Pattern

end UrReplay.Discovery
