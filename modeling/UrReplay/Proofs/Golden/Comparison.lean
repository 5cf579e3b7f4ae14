import UrReplay.Proofs.Golden.Layout
import UrReplay.Proofs.Golden.Recorder
/-!
# UrReplay.Proofs.Golden.Comparison

Comparing a payload with a golden file, for every tree, path and payload. There are four verdicts, and which
one is given depends on what is at the path alone: nothing, the payload, another payload, or anything else
(`compare_exact`). So a payload passes only if there is no golden file, or one that records it.
-/

namespace UrReplay.Golden

variable (path : Path) {file : Except FileError Bytes} {payload : Bytes}

/-! ### What is read -/

theorem payloadOfFile_eq_some_iff_records :
    payloadOfFile path file = .ok (some payload) ↔
      ∃ content, file = .ok (Utf8.encode content) ∧ Records content payload := by
  simp only [payloadOfFile_eq_some_iff, records_iff_spells]

/-- All else is an error. -/
theorem exists_payloadOfFile_eq_error_iff :
    (∃ e, payloadOfFile path file = .error e) ↔
      file ≠ .error .notFound ∧ ¬∃ other content, file = .ok (Utf8.encode content) ∧ Records content other := by
  rw [ne_eq, ← payloadOfFile_eq_none_iff path]
  simp only [← payloadOfFile_eq_some_iff_records path]
  cases payloadOfFile path file with
  | error e => simp
  | ok recorded => cases recorded <;> simp

/-! ### Verdicts -/

/-- Which verdict is given, by what has been read. -/
theorem ofFile_verdict (file : Except FileError Bytes) (payload : Bytes) :
    (Check.ofFile path file payload = .missing ↔ payloadOfFile path file = .ok none) ∧
      (Check.ofFile path file payload = .matched ↔ payloadOfFile path file = .ok (some payload)) ∧
      (∀ expected actual, Check.ofFile path file payload = .mismatched expected actual ↔
        ∃ other, payloadOfFile path file = .ok (some other) ∧ other ≠ payload ∧
          expected = other.length ∧ actual = payload.length) ∧
      ((∃ reason, Check.ofFile path file payload = .unreadable reason) ↔
        ∃ e, payloadOfFile path file = .error e) := by
  rw [Check.ofFile]
  cases payloadOfFile path file with
  | error e => simp
  | ok recorded =>
    cases recorded with
    | none => simp
    | some other =>
      by_cases hsame : other = payload
      · simp [hsame]
      · have hother : payload ≠ other := Ne.symm hsame
        simp [hsame, hother, eq_comm]

/-- The file at a path records a payload: it is UTF-8, and its text does. -/
def RecordedAt (tree : FileTree) (path : Path) (payload : Bytes) : Prop :=
  ∃ content, tree.read path = .ok (Utf8.encode content) ∧ Records content payload

/-- What comparing says, and that it changes nothing. The golden file is missing if reading finds nothing at
the path. It matches if it records the payload, and it is a mismatch, with the lengths of both in bytes, if it
records another one. It is unreadable in every other case. So there is no failure exactly if it is missing or
records the payload. -/
theorem compare_exact (tree : FileTree) (path : Path) (payload : Bytes) :
    let result := (compare path payload : StateM FileTree Check).run tree
    result.2 = tree ∧
      (result.1 = .missing ↔ tree.read path = .error .notFound) ∧
      (result.1 = .matched ↔ RecordedAt tree path payload) ∧
      (∀ expected actual, result.1 = .mismatched expected actual ↔
        ∃ other, RecordedAt tree path other ∧ other ≠ payload ∧
          expected = other.length ∧ actual = payload.length) ∧
      ((∃ reason, result.1 = .unreadable reason) ↔
        tree.read path ≠ .error .notFound ∧ ¬∃ other, RecordedAt tree path other) ∧
      (result.1.isFailure = false ↔ tree.read path = .error .notFound ∨ RecordedAt tree path payload) := by
  intro result
  have hresult : result = (.ofFile path (tree.read path) payload, tree) := run_compare tree path payload
  obtain ⟨hmissing, hmatched, hmismatched, hunreadable⟩ :=
    ofFile_verdict path (tree.read path) payload
  rw [payloadOfFile_eq_none_iff] at hmissing
  rw [payloadOfFile_eq_some_iff_records] at hmatched
  simp only [payloadOfFile_eq_some_iff_records] at hmismatched
  rw [exists_payloadOfFile_eq_error_iff] at hunreadable
  rw [hresult]
  refine ⟨rfl, hmissing, hmatched, hmismatched, hunreadable, ?_⟩
  rw [isFailure_ofFile_eq_false_iff]
  simp only [RecordedAt, records_iff_spells]

/-- A golden file with capital digits, blanks around them and a second line, on the way through a link. The
working directory is beside it. -/
def looseGolden : FileTree where
  home := ["work".toList]
  entries :=
    [ (["work".toList], .directory),
      (["stored".toList], .directory),
      (["a".toList, "stored".toList], .file (Utf8.encode " \t0A0b\r\nignored\n".toList)),
      (["a.golden".toList], .link ⟨"/stored/a".toList⟩) ]
  nodup := by decide
  way := by decide

example :
    ((compare ⟨"../a.golden".toList⟩ [0x0A, 0x0B] : StateM FileTree Check).run looseGolden).1 = .matched := by
  decide +kernel

end UrReplay.Golden
