import UrReplay.Capture.Outcome
import UrReplay.Golden.Check
/-!
# UrReplay.Suite.Report

What a run finds out: a report on each capture file, and a tally.
-/

namespace UrReplay.Suite

/-- All that a run learns about a capture file. -/
structure FileReport where
  outcome : Outcome
  golden : Golden.Check := .skipped
  /-- The golden file that was written. -/
  written : Option Path := none
  /-- Why no golden file was written, if one had to be. -/
  writeError : Option String := none
  deriving Repr, DecidableEq

/-- Whether a capture file passes: there is a payload, and nothing about its golden file speaks
against it. -/
def FileReport.passed (report : FileReport) : Bool :=
  report.outcome.succeeded && !report.golden.isFailure && report.writeError.isNone

/-- How many files passed, out of how many. -/
structure Summary where
  passed : Nat
  total : Nat
  deriving Repr, DecidableEq

namespace Summary

/-- The tally of some reports. -/
def ofReports (reports : List FileReport) : Summary where
  passed := reports.countP (·.passed)
  total := reports.length

/-- Whether every file passed, and there was one. -/
def allPassed (summary : Summary) : Bool := 0 < summary.total && summary.passed == summary.total

end Summary

end UrReplay.Suite
