import UrReplay.Proofs.Text.Decimal
import UrReplay.Proofs.Text.Lines
import UrReplay.Report.Lines
/-!
# UrReplay.Proofs.Report.Lines

The report on a run ends in a line with the tally (`getLast?_lines_run`).
-/

namespace UrReplay.Report

/-- The line with a tally. -/
def tallyLine (tally : Suite.Summary) : String :=
  "Tests passed: " ++ toString tally.passed ++ "/" ++ toString tally.total

theorem render_append (coloured : Bool) (document document' : Document) :
    Document.render coloured (document ++ document') =
      document.render coloured ++ document'.render coloured := by
  rw [Document.render, List.map_append, String.join_append, Document.render, Document.render]

theorem toList_tallyLine (tally : Suite.Summary) :
    (tallyLine tally).toList =
      "Tests passed: ".toList ++ Decimal.encode tally.passed ++ ['/'] ++ Decimal.encode tally.total := by
  have hdigits (n : Nat) : (toString n).toList = Decimal.encode n := Nat.toList_repr
  rw [tallyLine, String.toList_append, String.toList_append, String.toList_append, hdigits, hdigits]
  rfl

/-- No character of the line ends it. -/
theorem not_mem_tallyLine (tally : Suite.Summary) {c : Char} (hc : c = '\n' ∨ c = '\r') :
    c ∉ (tallyLine tally).toList := by
  have hdigits (n : Nat) : c ∉ Decimal.encode n := fun h => by
    have hdigit := Decimal.isDigit_of_mem_encode h
    rcases hc with rfl | rfl <;> exact absurd hdigit (by decide)
  have hletters : c ∉ "Tests passed: ".toList := by
    rcases hc with rfl | rfl <;> decide
  have hslash : c ∉ ['/'] := by
    rcases hc with rfl | rfl <;> decide
  rw [toList_tallyLine, List.mem_append, List.mem_append, List.mem_append, not_or, not_or, not_or]
  exact ⟨⟨⟨hletters, hdigits _⟩, hslash⟩, hdigits _⟩

theorem render_summary (tally : Suite.Summary) : Document.render false (summary tally) =
    "\n=== Summary ===\n" ++ (tallyLine tally ++ "\n") := by
  simp only [Document.render, summary, List.map_cons, List.map_nil, String.join_cons, String.join_nil,
    String.append_empty, Span.render, Bool.false_eq_true, if_false, tallyLine]

/-- The last line of what a run prints is the one with the tally. -/
theorem getLast?_lines_run (before : Document) (reports : List Suite.FileReport) :
    (Text.lines (Document.render false (before ++ run reports)).toList).getLast? =
      some (tallyLine (.ofReports reports)).toList := by
  have htail : (Document.render false (before ++ run reports)).toList =
      (Document.render false (before ++ reports.flatMap file)).toList ++ "\n=== Summary ===".toList ++
        '\n' :: ((tallyLine (.ofReports reports)).toList ++ ['\n']) := by
    rw [run, ← List.append_assoc, render_append, render_summary, String.toList_append,
      String.toList_append, String.toList_append, List.append_assoc]
    rfl
  have hreturn := (Text.withoutFinalReturn_eq (tallyLine (.ofReports reports)).toList).resolve_right
    fun h => not_mem_tallyLine (.ofReports reports) (.inr rfl)
      (h ▸ List.mem_append_right _ List.mem_cons_self)
  rw [htail, Text.getLast?_lines (not_mem_tallyLine _ (.inl rfl)), hreturn]

end UrReplay.Report
