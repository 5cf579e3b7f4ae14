import UrReplay.Text.Basic
/-!
# UrReplay.Text.Lines

The lines of a text. A line ends at a line feed, or at a carriage return and a line feed; neither
belongs to the line. What follows the last line feed is a line of its own unless it is empty, and a
carriage return at its end stays, because no line feed follows it.
-/

namespace UrReplay.Text

/-- A line without the carriage return that stood before its line feed. -/
def withoutFinalReturn (line : Text) : Text :=
  match line.getLast? with
  | some '\r' => line.dropLast
  | _ => line

/-- The lines among the pieces that `split '\n'` gives: all but the last were ended by a line
feed. -/
def linesOfPieces : List Text → List Text
  | [] => []
  | [last] => if last.isEmpty then [] else [last]
  | piece :: next :: rest => withoutFinalReturn piece :: linesOfPieces (next :: rest)

/-- The lines of a text, in order. -/
def lines (t : Text) : List Text := linesOfPieces (split '\n' t)

end UrReplay.Text
