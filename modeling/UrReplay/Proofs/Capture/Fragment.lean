import Mathlib
import UrReplay.Capture.Fragment
import UrReplay.Proofs.Text.Lines
/-!
# UrReplay.Proofs.Capture.Fragment

The fragments of a text, line by line. A carriage return at the end of a line does not matter, because it is
no part of a marker and ends a fragment (`ofLine?_append_return`), and neither does an empty last line. So a
text gives the fragments of the pieces between its line feeds (`ofText_eq_split`), whichever way its lines end
(`ofText_append_ending`).
-/

namespace UrReplay

open Resource (scheme)

namespace Fragment

variable {line : Text}

/-! ### Markers -/

/-- There is no marker in a text, in any letter case. -/
def MarkerFree (t : Text) : Prop := ¬scheme <:+: t.lower

instance (t : Text) : Decidable (MarkerFree t) := inferInstanceAs (Decidable ¬_)

theorem hasMarker_iff {t : Text} : hasMarker t = true ↔ scheme <+: t.lower := by
  rw [hasMarker, beq_iff_eq, List.prefix_iff_eq_take, eq_comm, Text.lower, Text.lower, List.map_take]

/-! ### Lines -/

theorem hasMarker_append_return (t : Text) : hasMarker (t ++ ['\r']) = hasMarker t := by
  have hprefix : scheme <+: (t ++ ['\r']).lower ↔ scheme <+: t.lower := by
    rw [Text.lower_append]
    constructor
    · intro h
      refine (List.prefix_concat_iff.1 h).resolve_left ?_
      intro heq
      have hlast := congrArg List.getLast? heq
      simp [scheme] at hlast
    · exact fun h => h.trans (List.prefix_append _ _)
  rw [Bool.eq_iff_iff, hasMarker_iff, hasMarker_iff, hprefix]

theorem fromMarker?_append_return (line : Text) :
    fromMarker? (line ++ ['\r']) = (fromMarker? line).map (· ++ ['\r']) := by
  induction line with
  | nil => rfl
  | cons c line ih =>
    rw [List.cons_append, fromMarker?, ← List.cons_append, hasMarker_append_return, ih, fromMarker?]
    split <;> rfl

/-- A carriage return at the end of a line does not matter: it is no part of a marker, and ends a
fragment. -/
theorem ofLine?_append_return (line : Text) : ofLine? (line ++ ['\r']) = ofLine? line := by
  have htoken (tail : Text) :
      (tail ++ ['\r']).takeWhile (!isDelimiter ·) = tail.takeWhile (!isDelimiter ·) := by
    rw [List.takeWhile_append]
    split
    · rename_i hall
      have hsame := (List.takeWhile_prefix (!isDelimiter ·)).eq_of_length hall
      have hnone : ['\r'].takeWhile (!isDelimiter ·) = [] := rfl
      rw [hnone, List.append_nil, hsame]
    · rfl
  rw [ofLine?, ofLine?, fromMarker?_append_return]
  cases fromMarker? line with
  | none => rfl
  | some tail => simp only [Option.map_some, Option.bind_eq_bind, Option.bind_some, htoken]

theorem ofLine?_withoutFinalReturn (line : Text) :
    ofLine? (Text.withoutFinalReturn line) = ofLine? line := by
  rcases Text.withoutFinalReturn_eq line with h | h
  · rw [h]
  · rw [← ofLine?_append_return, h]

/-! ### Texts -/

/-- How lines end, and whether the last one is empty, does not matter for the fragments in them. -/
theorem filterMap_linesOfPieces (pieces : List Text) :
    (Text.linesOfPieces pieces).filterMap ofLine? = pieces.filterMap ofLine? := by
  induction pieces with
  | nil => rfl
  | cons piece pieces ih =>
    cases pieces with
    | nil =>
      cases piece with
      | nil => rfl
      | cons c piece => rfl
    | cons next pieces =>
      rw [Text.linesOfPieces, List.filterMap_cons, ofLine?_withoutFinalReturn, ih,
        List.filterMap_cons (a := piece)]

theorem ofText_eq_split (t : Text) : ofText t = (Text.split '\n' t).filterMap ofLine? := by
  rw [ofText, Text.lines, filterMap_linesOfPieces]

/-- A line feed cuts a text into two parts whose fragments do not depend on each other. -/
theorem ofText_append_feed (s t : Text) : ofText (s ++ '\n' :: t) = ofText s ++ ofText t := by
  rw [ofText_eq_split, ofText_eq_split, ofText_eq_split, Text.split_append, List.filterMap_append]

theorem ofText_of_not_mem (h : '\n' ∉ line) : ofText line = (ofLine? line).toList := by
  rw [ofText_eq_split, Text.split_of_not_mem h, List.filterMap_cons]
  cases ofLine? line <;> rfl

/-- A carriage return at the end of a text belongs to its last line. -/
theorem ofText_append_return (t : Text) : ofText (t ++ ['\r']) = ofText t := by
  by_cases h : '\n' ∈ t
  · obtain ⟨s, rest, rfl⟩ := List.append_of_mem h
    rw [List.append_assoc, List.cons_append, ofText_append_feed, ofText_append_feed,
      ofText_append_return rest]
  · have hreturn : '\n' ∉ t ++ ['\r'] := by simp [h]
    rw [ofText_of_not_mem hreturn, ofLine?_append_return, ofText_of_not_mem h]
termination_by t.length

/-- Two texts with the end of a line between them give the fragments of both. -/
theorem ofText_append_ending {ending : Text} (h : ending = ['\n'] ∨ ending = ['\r', '\n']) (s t : Text) :
    ofText (s ++ (ending ++ t)) = ofText s ++ ofText t := by
  rcases h with rfl | rfl
  · exact ofText_append_feed s t
  · have hreturn : s ++ (['\r', '\n'] ++ t) = (s ++ ['\r']) ++ '\n' :: t := by simp
    rw [hreturn, ofText_append_feed, ofText_append_return]

end Fragment

end UrReplay
