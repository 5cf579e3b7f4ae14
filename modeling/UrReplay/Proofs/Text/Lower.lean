import Mathlib
import UrReplay.Text.Blank
/-!
# UrReplay.Proofs.Text.Lower

Letter case and blanks do not interfere: a blank has no case, so folding letters and trimming
commute (`lower_trim`). A text without capital letters is its own lower-case form, and one without
blanks is trimmed already.
-/

namespace UrReplay

/-- The visible ASCII characters are no blanks. -/
theorem isBlank_eq_false {c : Char} (hfirst : 0x21 ≤ c.toNat) (hlast : c.toNat ≤ 0x7E) :
    isBlank c = false := by
  rw [isBlank, List.any_eq_false]
  intro range hrange
  simp only [blankRanges, List.mem_cons, List.not_mem_nil, or_false] at hrange
  rcases hrange with rfl | rfl | rfl | rfl | rfl | rfl | rfl | rfl | rfl | rfl <;> simp <;> omega

theorem isBlank_toLower (c : Char) : isBlank c.toLower = isBlank c := by
  by_cases hupper : c.isUpper = true
  · have hrange : 0x41 ≤ c.toNat ∧ c.toNat ≤ 0x5A := by
      simpa [Char.isUpper, UInt32.le_iff_toNat_le] using hupper
    have hvalid : (c.toNat + 32).isValidChar := by omega
    have hlower : c.toLower.toNat = c.toNat + 32 := by
      rw [Char.toLower_eq_of_isUpper hupper, Char.toNat_ofNat, if_pos hvalid]
    rw [isBlank_eq_false (c := c) (by omega) (by omega),
      isBlank_eq_false (c := c.toLower) (by omega) (by omega)]
  · rw [Char.toLower_eq_of_not_isUpper hupper]

/-- The characters that fold to a small letter are the letter and its capital. -/
theorem toLower_eq_iff {c letter : Char} (h : letter.isLower = true) :
    c.toLower = letter ↔ c = letter ∨ c = letter.toUpper := by
  have hself : letter.toLower = letter :=
    Char.toLower_eq_of_not_isUpper (Char.not_isUpper_of_isLower h)
  constructor
  · intro hc
    by_cases hupper : c.isUpper = true
    · have hcapital := Char.toUpper_eq_of_not_isLower (Char.not_isLower_of_isUpper hupper)
      exact .inr (by rw [← hc, Char.toUpper_toLower_eq_toUpper, hcapital])
    · exact .inl (by rw [← hc, Char.toLower_eq_of_not_isUpper hupper])
  · intro hc
    rcases hc with rfl | rfl
    · exact hself
    · rw [Char.toLower_toUpper_eq_toLower, hself]

/-- No other character folds to one that is no letter. -/
theorem toLower_eq_iff_of_not_isAlpha {c d : Char} (h : d.isAlpha = false) : c.toLower = d ↔ c = d := by
  constructor
  · intro hc
    by_cases hupper : c.isUpper = true
    · rw [← hc, Char.isAlpha_toLower_eq_isAlpha, Char.isAlpha, hupper] at h
      simp at h
    · rwa [Char.toLower_eq_of_not_isUpper hupper] at hc
  · rintro rfl
    have hupper : ¬c.isUpper = true := fun hupper => by simp [Char.isAlpha, hupper] at h
    exact Char.toLower_eq_of_not_isUpper hupper

namespace Text

theorem lower_eq_self {t : Text} (h : ∀ c ∈ t, c.isUpper = false) : lower t = t := by
  have hsame : t.map Char.toLower = t.map id := List.map_congr_left fun c hc =>
    Char.toLower_eq_of_not_isUpper (Bool.eq_false_iff.1 (h c hc))
  rw [lower, hsame, List.map_id]

theorem lower_lower (t : Text) : lower (lower t) = lower t := by
  have hcomp : Char.toLower ∘ Char.toLower = Char.toLower :=
    funext Char.toLower_toLower_eq_toLower
  rw [lower, lower, List.map_map, hcomp]

theorem lower_intercalate (separator : Char) (pieces : List Text) :
    lower ([separator].intercalate pieces) = [separator.toLower].intercalate (pieces.map lower) := by
  induction pieces with
  | nil => rfl
  | cons piece pieces ih =>
    cases pieces with
    | nil => rw [List.map_singleton, List.intercalate_singleton, List.intercalate_singleton]
    | cons next pieces =>
      rw [List.map_cons, List.map_cons, List.intercalate_cons_cons, List.intercalate_cons_cons,
        lower_append, lower_append, ih]
      rfl

theorem dropWhile_isBlank_lower (t : Text) :
    (lower t).dropWhile isBlank = lower (t.dropWhile isBlank) := by
  rw [lower, List.dropWhile_map]
  have hcomp : isBlank ∘ Char.toLower = isBlank := funext isBlank_toLower
  rw [hcomp, lower]

/-- Folding letters and trimming commute. -/
theorem lower_trim (t : Text) : lower (trim t) = trim (lower t) := by
  have hreverse (s : Text) : (lower s).reverse = lower s.reverse := List.map_reverse.symm
  rw [trim, trim, dropWhile_isBlank_lower, hreverse, dropWhile_isBlank_lower, hreverse]

/-- Trimming changes nothing in a text with no blank at either end. -/
theorem trim_eq_self_of_ends {t : Text} (hfirst : ∀ c, t.head? = some c → isBlank c = false)
    (hlast : ∀ c, t.getLast? = some c → isBlank c = false) : trim t = t := by
  have hdrop {s : Text} (hs : ∀ c, s.head? = some c → isBlank c = false) :
      s.dropWhile isBlank = s := by
    cases s with
    | nil => rfl
    | cons c s =>
      rw [List.dropWhile_cons_of_neg]
      rw [hs c rfl]
      exact Bool.false_ne_true
  have hreverse : t.reverse.dropWhile isBlank = t.reverse := hdrop (by rwa [List.head?_reverse])
  rw [trim, hdrop hfirst, hreverse, List.reverse_reverse]

theorem trim_eq_self {t : Text} (h : ∀ c ∈ t, isBlank c = false) : trim t = t :=
  trim_eq_self_of_ends (fun c hc => h c (List.mem_of_mem_head? hc))
    (fun c hc => h c (List.mem_of_mem_getLast? hc))

end Text

end UrReplay
