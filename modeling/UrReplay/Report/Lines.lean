import UrReplay.Report.Document
import UrReplay.Suite.Report
/-!
# UrReplay.Report.Lines

What a run prints: a banner, the report on each capture file, and a summary.
-/

namespace UrReplay.Report

/-- Yes or no, at the end of a line. -/
def answer (yes : Bool) : Document :=
  [ .styled { colour := some (if yes then .green else .red) } (if yes then "YES" else "NO"),
    .plain "\n" ]

/-- A line that tells of trouble. -/
def trouble (line : String) : Document := [.styled { colour := some .red } line, .plain "\n"]

/-- The head of a run. -/
def banner (generating : Bool) : Document :=
  .styled { colour := some .cyan, bold := true } "=== UR Fragment Decode Verification ===\n"
    :: (if generating then [.plain "Mode: generating expected output files\n"] else [])

/-- What the comparison with the golden file gave. -/
def golden : Golden.Check → Document
  | .matched => .plain "Output matches expected: " :: answer true
  | .mismatched expected actual =>
    .plain "Output matches expected: " :: answer false ++
      [.plain ("  expected " ++ toString expected ++ " bytes, got " ++ toString actual
        ++ " bytes\n")]
  | .unreadable reason => trouble ("Expected output unreadable: " ++ reason)
  | .missing | .skipped => []

/-- The report on a capture file. -/
def file (report : Suite.FileReport) : Document :=
  let outcome := report.outcome
  [.plain "\n", .styled { bold := true } ("=== Testing file: " ++ outcome.path.display ++ " ===\n")]
    ++ (if outcome.available = 0 then [.plain "No fragments found in file\n"] else [])
    ++ .plain "Data reconstruction is complete: " :: answer outcome.completed
    ++ .plain "Data reconstruction is success (valid): " :: answer outcome.succeeded
    ++ [.plain ("Parts used/total available parts: " ++ toString outcome.consumed ++ "/"
      ++ toString outcome.available ++ "\n")]
    ++ (outcome.detail.map fun detail => .plain ("Decoder status: " ++ detail ++ "\n")).toList
    ++ golden report.golden
    ++ (report.written.map fun path =>
      .plain ("Generated expected output: " ++ path.display ++ "\n")).toList
    ++ (report.writeError.map fun reason =>
      trouble ("Failed to generate expected output: " ++ reason)).getD []

/-- The tally at the end of a run. -/
def summary (tally : Suite.Summary) : Document :=
  [ .plain "\n=== Summary ===\n",
    .styled { colour := some (if tally.allPassed then .green else .red), bold := true }
      ("Tests passed: " ++ toString tally.passed ++ "/" ++ toString tally.total),
    .plain "\n" ]

/-- The reports on all files, and the tally. -/
def run (reports : List Suite.FileReport) : Document :=
  reports.flatMap file ++ summary (.ofReports reports)

end UrReplay.Report
