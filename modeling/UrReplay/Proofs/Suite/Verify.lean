import UrReplay.Files.Tree.Access
import UrReplay.Proofs.Golden.Recorder
import UrReplay.Suite.Verify
/-!
# UrReplay.Proofs.Suite.Verify

Runs over the files of a tree. A run that writes golden files does to the tree what `goldenOf` says, and
reports `generatedIn` (`run_verify_of_generating`). A run that does not leaves the tree as it is, and
reports `checkedIn` (`run_verify_of_not_generating`, `run_verifyAll_of_not_generating`).
-/

namespace UrReplay.Suite

open FileTree (run_bind run_pure run_readFile)
open Golden (run_write)

/-- The capture files that are found in a tree. -/
def found (settings : Settings) (tree : FileTree) : Except Discovery.Error (List Path) :=
  ((Discovery.discover settings.patterns settings.casesDirectory : StateM FileTree _).run tree).1

theorem found_eq (settings : Settings) (tree : FileTree) : found settings tree =
    Discovery.captures settings.patterns settings.casesDirectory (tree.list settings.casesDirectory) := rfl

/-- Looking for capture files leaves a tree as it is. -/
theorem run_discover (settings : Settings) (tree : FileTree) :
    (Discovery.discover settings.patterns settings.casesDirectory : StateM FileTree _).run tree =
      (found settings tree, tree) := rfl

variable (σ : Type) {ε : Type} [FragmentDecoder σ ε] [Inhabited σ] {settings : Settings}
  (naming : Golden.Naming) (tree : FileTree) (path : Path)

/-- The outcome for a capture file of a tree. -/
def outcomeIn : Outcome := Outcome.ofFile σ path (tree.read path)

theorem path_outcomeIn : (outcomeIn σ tree path).path = path := rfl

/-- The golden file that is written for a capture file: where, and what. -/
def goldenOf : Option (Location × Bytes) := do
  let payload ← (outcomeIn σ tree path).payload
  let location ← tree.destination? (naming.goldenPath path)
  return (location, Utf8.encode (Golden.render payload))

/-- The report on a capture file if golden files are written. -/
def generatedIn : FileReport :=
  let golden := naming.goldenPath path
  match (outcomeIn σ tree path).payload, tree.destination? golden with
  | none, _ => { outcome := outcomeIn σ tree path }
  | some _, some _ => { outcome := outcomeIn σ tree path, written := some golden }
  | some _, none =>
    { outcome := outcomeIn σ tree path, writeError := some (Golden.WriteError.mk golden).message }

variable (settings) in
/-- The report on a capture file if golden files are not written. -/
def checkedIn : FileReport where
  outcome := outcomeIn σ tree path
  golden :=
    match settings.compareGolden, (outcomeIn σ tree path).payload with
    | true, some payload =>
      let golden := settings.naming.goldenPath path
      .ofFile golden (tree.read golden) payload
    | _, _ => .skipped

theorem outcome_generatedIn : (generatedIn σ naming tree path).outcome = outcomeIn σ tree path := by
  rw [generatedIn]
  split <;> rfl

/-- An outcome with a payload is recorded, or it is said why not. -/
theorem written_generatedIn (h : (outcomeIn σ tree path).succeeded = true) :
    (generatedIn σ naming tree path).written = some (naming.goldenPath path) ∨
      (generatedIn σ naming tree path).writeError.isSome = true := by
  obtain ⟨payload, hpayload⟩ : ∃ payload, (outcomeIn σ tree path).payload = some payload :=
    Option.isSome_iff_exists.1 h
  rw [generatedIn, hpayload]
  cases tree.destination? (naming.goldenPath path) with
  | none => exact .inr rfl
  | some location => exact .inl rfl

/-! ### One file -/

theorem run_verify_of_not_generating (h : settings.generateGolden = false) :
    (verify σ settings path : StateM FileTree FileReport).run tree =
      (checkedIn σ settings tree path, tree) := by
  rw [verify, run_bind, run_readFile, h, checkedIn, ← outcomeIn]
  simp only [Bool.false_eq_true, if_false]
  cases settings.compareGolden with
  | false => rfl
  | true =>
    rw [if_pos rfl, run_bind, Golden.check]
    cases (outcomeIn σ tree path).payload with
    | none => rfl
    | some payload =>
      simp only [path_outcomeIn, Golden.compare, run_bind, run_readFile, run_pure]

theorem run_verify_of_generating (h : settings.generateGolden = true) :
    (verify σ settings path : StateM FileTree FileReport).run tree =
      (generatedIn σ settings.naming tree path,
        tree.insertFiles (goldenOf σ settings.naming tree path).toList) := by
  rw [verify, run_bind, run_readFile, h, generatedIn, goldenOf, ← outcomeIn]
  simp only [if_true, run_bind, Golden.record]
  cases (outcomeIn σ tree path).payload with
  | none => rfl
  | some payload =>
    simp only [run_bind, run_write, path_outcomeIn]
    cases tree.destination? (settings.naming.goldenPath path) with
    | none => rfl
    | some location => rfl

/-! ### One file after another -/

theorem ofReports_map_congr {α : Type} {paths : List α} {report report' : α → FileReport}
    (h : ∀ path ∈ paths, (report path).passed = (report' path).passed) :
    Summary.ofReports (paths.map report) = Summary.ofReports (paths.map report') := by
  rw [Summary.ofReports, Summary.ofReports, List.countP_map, List.countP_map, List.length_map,
    List.length_map]
  congr 1
  refine List.countP_congr fun path hpath => ?_
  rw [Function.comp_apply, Function.comp_apply, h path hpath]

theorem run_verifyAll_of_not_generating (h : settings.generateGolden = false) (paths : List Path) :
    (verifyAll σ settings paths : StateM FileTree _).run tree =
      (paths.map (checkedIn σ settings tree), tree) := by
  induction paths with
  | nil => rfl
  | cons path paths ih =>
    rw [verifyAll, run_bind, run_verify_of_not_generating σ tree path h, run_bind, ih]
    rfl

end UrReplay.Suite
