import UrReplay.Text.Basic
/-!
# UrReplay.Proofs.Text.Split

Cutting at a separator and putting it back between the pieces undo each other: a text is its pieces
with separators between them (`intercalate_split`), and pieces without separators are cut apart again
(`split_intercalate`).
-/

namespace UrReplay.Text

theorem splitFrom_eq (separator : Char) (piece t : Text) :
    splitFrom separator piece t = (t.splitOn separator).modifyHead (piece.reverse ++ ·) := by
  induction t generalizing piece with
  | nil => rw [splitFrom, List.splitOn_nil, List.modifyHead_cons, List.append_nil]
  | cons c t ih =>
    rw [splitFrom, List.splitOn, List.splitOnP_cons_eq_if_modifyHead]
    by_cases h : c = separator
    · rw [if_pos h, if_pos (beq_iff_eq.2 h), ih, List.modifyHead_cons, List.append_nil]
      exact congrArg _ (congrFun List.modifyHead_id _)
    · rw [if_neg h, if_neg (fun heq => h (beq_iff_eq.1 heq)), ih, List.modifyHead_modifyHead]
      congr 1
      funext s
      simp

theorem split_eq_splitOn (separator : Char) (t : Text) : split separator t = t.splitOn separator := by
  rw [split, splitFrom_eq]
  exact congrFun List.modifyHead_id _

/-- A text is its pieces with separators between them. -/
theorem intercalate_split (separator : Char) (t : Text) :
    [separator].intercalate (split separator t) = t := by
  rw [split_eq_splitOn]
  exact List.intercalate_splitOn separator

theorem not_mem_of_mem_splitFrom {separator : Char} {piece t : Text} (hpiece : separator ∉ piece)
    {s : Text} (hs : s ∈ splitFrom separator piece t) : separator ∉ s := by
  induction t generalizing piece with
  | nil =>
    obtain rfl := List.mem_singleton.1 hs
    rwa [List.mem_reverse]
  | cons c t ih =>
    rw [splitFrom] at hs
    split at hs
    · rcases List.mem_cons.1 hs with rfl | hs
      · rwa [List.mem_reverse]
      · exact ih List.not_mem_nil hs
    · rename_i hc
      refine ih (fun hmem => ?_) hs
      rcases List.mem_cons.1 hmem with rfl | hmem
      · exact hc rfl
      · exact hpiece hmem

/-- No piece holds the separator. -/
theorem not_mem_of_mem_split {separator : Char} {t s : Text} (hs : s ∈ split separator t) :
    separator ∉ s :=
  not_mem_of_mem_splitFrom List.not_mem_nil hs

theorem length_splitFrom (separator : Char) (piece t : Text) :
    (splitFrom separator piece t).length = t.count separator + 1 := by
  induction t generalizing piece with
  | nil => rfl
  | cons c t ih => by_cases h : c = separator <;> simp [splitFrom, h, ih]

/-- There is one piece more than there are separators. -/
theorem length_split (separator : Char) (t : Text) :
    (split separator t).length = t.count separator + 1 :=
  length_splitFrom separator [] t

/-- Pieces that hold no separator are cut apart again. -/
theorem split_intercalate {separator : Char} {pieces : List Text} (hne : pieces ≠ [])
    (h : ∀ piece ∈ pieces, separator ∉ piece) :
    split separator ([separator].intercalate pieces) = pieces := by
  rw [split_eq_splitOn]
  exact List.splitOn_intercalate separator h hne

end UrReplay.Text
