import UrReplay.Proofs.Text.Split
import UrReplay.Text.Lines
/-!
# UrReplay.Proofs.Text.Lines

The lines of a text, taken off its front one by one: those that a line feed ends (`lines_append`), and
what is left when there is no line feed any more (`lines_of_not_mem`). The last line of a text that ends in
a line feed stands between its last two line feeds (`getLast?_lines`).
-/

namespace UrReplay.Text

variable {line : Text}

theorem split_ne_nil (separator : Char) (t : Text) : split separator t ≠ [] := by
  rw [split_eq_splitOn]
  exact List.splitOn_ne_nil separator t

theorem lines_append (h : '\n' ∉ line) (t : Text) :
    lines (line ++ '\n' :: t) = withoutFinalReturn line :: lines t := by
  rw [lines, lines, split_append, split_of_not_mem h, List.singleton_append]
  cases hpieces : split '\n' t with
  | nil => exact absurd hpieces (split_ne_nil '\n' t)
  | cons piece pieces => rfl

theorem lines_of_not_mem (h : '\n' ∉ line) : lines line = if line.isEmpty then [] else [line] := by
  rw [lines, split_of_not_mem h, linesOfPieces]

/-- A line loses at most a carriage return at its end. -/
theorem withoutFinalReturn_eq (line : Text) :
    withoutFinalReturn line = line ∨ withoutFinalReturn line ++ ['\r'] = line := by
  unfold withoutFinalReturn
  split
  · rename_i hlast
    obtain ⟨line, rfl⟩ := List.getLast?_eq_some_iff.1 hlast
    exact .inr (by rw [List.dropLast_concat])
  · exact .inl rfl

theorem getLast?_linesOfPieces (before : List Text) (piece : Text) :
    (linesOfPieces (before ++ [piece, []])).getLast? = some (withoutFinalReturn piece) := by
  induction before with
  | nil => rfl
  | cons first before ih =>
    obtain ⟨next, rest, hrest⟩ : ∃ next rest, before ++ [piece, []] = next :: rest :=
      List.exists_cons_of_ne_nil (List.append_ne_nil_of_right_ne_nil before (List.cons_ne_nil piece [[]]))
    rw [hrest] at ih
    rw [List.cons_append, hrest, linesOfPieces, List.getLast?_cons, ih, Option.getD_some]

theorem getLast?_lines (h : '\n' ∉ line) (t : Text) :
    (lines (t ++ '\n' :: (line ++ ['\n']))).getLast? = some (withoutFinalReturn line) := by
  have hline : split '\n' (line ++ ['\n']) = [line, []] := by
    rw [split_append, split_of_not_mem h]
    rfl
  rw [lines, split_append, hline, getLast?_linesOfPieces]

end UrReplay.Text
