import UrReplay.CommandLine.Run
import UrReplay.Proofs.Golden.Content
import UrReplay.Proofs.Report.Lines
import UrReplay.Proofs.Suite.Verify
/-!
# UrReplay.Proofs.CommandLine.Status

What the exit status of the program means when its arguments are capture files, or none
(`run_status`). A capture `Passes` if it decodes, and its golden file, if there is one, spells the payload.
-/

namespace UrReplay.CommandLine

open FileTree (run_bind run_pure)
open Resource (Decoder)
open Suite (Settings Summary checkedIn found outcomeIn)

variable {settings : Settings} {arguments : List Text}

/-! ### Captures that pass -/

/-- A capture decodes to a payload, and no golden file says otherwise, unless none is asked. A capture that
cannot be read has no fragments. -/
def Passes (settings : Settings) (tree : FileTree) (path : Path) : Prop :=
  let session := Session.run Decoder (Fragment.ofFile (tree.read path))
  let golden := tree.read (settings.naming.goldenPath path)
  ∃ payload, session.succeeded = true ∧ session.payload = some payload ∧
    (settings.compareGolden = true →
      golden = .error .notFound ∨
        ∃ content, golden = .ok (Utf8.encode content) ∧ Golden.Spells content payload)

theorem passed_checkedIn_iff (settings : Settings) (tree : FileTree) (path : Path) :
    (checkedIn Decoder settings tree path).passed = true ↔ Passes settings tree path := by
  have hpassed : (checkedIn Decoder settings tree path).passed =
      ((outcomeIn Decoder tree path).payload.isSome &&
        !(checkedIn Decoder settings tree path).golden.isFailure) := Bool.and_true _
  have hpayload : (Session.run Decoder (Fragment.ofFile (tree.read path))).payload =
      (outcomeIn Decoder tree path).payload := rfl
  have hsucceeded : (Session.run Decoder (Fragment.ofFile (tree.read path))).succeeded =
      (outcomeIn Decoder tree path).payload.isSome := rfl
  rw [hpassed, Passes, hpayload, hsucceeded, checkedIn]
  cases (outcomeIn Decoder tree path).payload with
  | none => simp
  | some payload =>
    cases settings.compareGolden with
    | false => simp [Golden.Check.isFailure]
    | true => simp [Golden.isFailure_ofFile_eq_false_iff]

instance (settings : Settings) (tree : FileTree) : DecidablePred (Passes settings tree) :=
  fun path => decidable_of_iff _ (passed_checkedIn_iff settings tree path)

/-! ### Arguments -/

theorem ofText_of_head?_ne {argument : Text} (h : argument.head? ≠ some '-') :
    Argument.ofText argument = .file argument := by
  unfold Argument.ofText
  split
  · rfl
  · exact absurd rfl h
  · exact absurd rfl h
  · exact absurd rfl h
  · rfl

/-- Names of files are added to those read so far. -/
theorem readFrom_of_head?_ne (h : ∀ argument ∈ arguments, argument.head? ≠ some '-')
    (request : Arguments) :
    request.readFrom arguments =
      { request with files := request.files ++ arguments.map Path.mk : Arguments }.request := by
  induction arguments generalizing request with
  | nil =>
    rw [Arguments.readFrom, List.map_nil, List.append_nil]
  | cons argument arguments ih =>
    obtain ⟨hargument, hrest⟩ := List.forall_mem_cons.1 h
    rw [Arguments.readFrom, ofText_of_head?_ne hargument, List.map_cons, List.append_cons]
    exact ih hrest (request.withFile argument)

theorem ofArguments_eq (h : ∀ argument ∈ arguments, argument ≠ [] ∧ argument.head? ≠ some '-') :
    Request.ofArguments arguments = .ok (.verify { files := arguments.map Path.mk }) := by
  rw [Request.ofArguments, readFrom_of_head?_ne fun argument hmem => (h argument hmem).2,
    Arguments.request, if_neg]
  · rfl
  · rw [Arguments.hasEmptyName, List.any_eq_true]
    rintro ⟨path, hmem, hempty⟩
    obtain ⟨argument, hargument, rfl⟩ := List.mem_map.1 hmem
    exact (h argument hargument).1 (beq_iff_eq.1 hempty)

/-! ### Runs -/

/-- The files that a run is about: those that are named, or those that are found if none is. -/
def filesOf (settings : Settings) (tree : FileTree) (arguments : List Text) :
    Except Discovery.Error (List Path) :=
  if arguments = [] then found settings tree else .ok (arguments.map Path.mk)

/-- The response to a run over these files. -/
def responseOf (settings : Settings) (tree : FileTree) : Except Discovery.Error (List Path) → Response
  | .error e => { status := 1, output := Report.banner false, complaint := some e.diagnostic }
  | .ok paths =>
    let reports := paths.map (checkedIn Decoder settings tree)
    { status := if (Summary.ofReports reports).allPassed then 0 else 1
      output := Report.banner false ++ Report.run reports }

theorem run_verifyFiles (h : settings.generateGolden = false) (tree : FileTree) (arguments : List Text) :
    (verifyFiles settings (arguments.map Path.mk) : StateM FileTree Response).run tree =
      (responseOf settings tree (filesOf settings tree arguments), tree) := by
  have hreports (paths : List Path) := Suite.run_verifyAll_of_not_generating Decoder tree h paths
  rw [verifyFiles, h]
  cases arguments with
  | nil =>
    rw [List.map_nil, List.isEmpty_nil, if_pos rfl, run_bind, Suite.run_discover, filesOf, if_pos rfl]
    cases found settings tree with
    | error e => rfl
    | ok paths =>
      simp only [run_bind, hreports]
      rfl
  | cons argument arguments =>
    rw [if_neg (by simp), run_bind, run_pure, filesOf, if_neg (List.cons_ne_nil argument arguments)]
    simp only [run_bind, hreports]
    rfl

theorem run_eq (environment : Suite.Environment) (tree : FileTree)
    (h : ∀ argument ∈ arguments, argument ≠ [] ∧ argument.head? ≠ some '-') :
    (run environment arguments : StateM FileTree Response).run tree =
      (responseOf environment.settings tree (filesOf environment.settings tree arguments), tree) := by
  rw [run, ofArguments_eq h]
  exact run_verifyFiles rfl tree arguments

theorem passed_ofReports (settings : Settings) (tree : FileTree) (paths : List Path) :
    (Summary.ofReports (paths.map (checkedIn Decoder settings tree))).passed =
      paths.countP fun path => Passes settings tree path := by
  rw [Summary.ofReports, List.countP_map]
  refine List.countP_congr fun path _ => ?_
  rw [Function.comp_apply, decide_eq_true_iff, passed_checkedIn_iff]

theorem total_ofReports (settings : Settings) (tree : FileTree) (paths : List Path) :
    (Summary.ofReports (paths.map (checkedIn Decoder settings tree))).total = paths.length :=
  List.length_map _

theorem allPassed_ofReports_iff (settings : Settings) (tree : FileTree) (paths : List Path) :
    (Summary.ofReports (paths.map (checkedIn Decoder settings tree))).allPassed = true ↔
      paths ≠ [] ∧ ∀ path ∈ paths, Passes settings tree path := by
  rw [Summary.allPassed, Bool.and_eq_true, decide_eq_true_iff, beq_iff_eq, total_ofReports,
    passed_ofReports, List.length_pos_iff, List.countP_eq_length]
  simp only [decide_eq_true_iff]

/-- What the exit status of a run over capture files means, and what the run prints. Files are named by the
arguments, or found; either way the run leaves the tree as it is. It exits with 0 if there are files and
all of them pass, and with 1 otherwise. The last line of what it prints, without colours, says how many
pass, out of how many; only the banner is printed if no files are found. -/
theorem run_status (environment : Suite.Environment) (tree : FileTree)
    (h : ∀ argument ∈ arguments, argument ≠ [] ∧ argument.head? ≠ some '-') :
    let settings := environment.settings
    let files := filesOf settings tree arguments
    let response := ((run environment arguments : StateM FileTree Response).run tree).1
    ((run environment arguments : StateM FileTree Response).run tree).2 = tree ∧
      (response.status = 0 ↔
        ∃ paths, files = .ok paths ∧ paths ≠ [] ∧ ∀ path ∈ paths, Passes settings tree path) ∧
      (response.status = 0 ∨ response.status = 1) ∧
      (∀ paths, files = .ok paths →
        (Text.lines (response.output.render false).toList).getLast? =
          some ("Tests passed: " ++ toString (paths.countP fun path => Passes settings tree path) ++ "/" ++
            toString paths.length).toList) ∧
      ∀ e, files = .error e →
        response.output.render false = "=== UR Fragment Decode Verification ===\n" := by
  rw [run_eq environment tree h]
  dsimp only
  generalize environment.settings = settings
  generalize filesOf settings tree arguments = files
  cases files with
  | error e =>
    have hone : (1 : UInt8) ≠ 0 := by decide
    refine ⟨rfl, ⟨fun hzero => absurd hzero hone, ?_⟩, .inr rfl, nofun, fun _ _ => rfl⟩
    rintro ⟨paths, hpaths, -⟩
    exact absurd hpaths nofun
  | ok paths =>
    have hall := allPassed_ofReports_iff settings tree paths
    have hstatus : (responseOf settings tree (.ok paths)).status =
        if (Summary.ofReports (paths.map (checkedIn Decoder settings tree))).allPassed then 0 else 1 := rfl
    refine ⟨rfl, ?_, ?_, ?_, nofun⟩
    · rw [hstatus, ite_eq_left_iff]
      constructor
      · intro hzero
        have hpass := hall.1 (by_contra fun hfail => absurd (hzero hfail) (by decide))
        exact ⟨paths, rfl, hpass⟩
      · rintro ⟨_, ⟨⟩, hpass⟩ hfail
        exact absurd (hall.2 hpass) hfail
    · rw [hstatus]
      exact ite_eq_or_eq _ _ _
    · -- The tally counts what passes because a report passes exactly if its capture does.
      rintro _ ⟨⟩
      rw [← passed_ofReports, ← total_ofReports settings tree paths]
      exact Report.getLast?_lines_run _ _

/-- Two captures of one byte at the top, the second one with a golden file in capital letters, and a file
without fragments in the working directory. -/
def mixedFiles : FileTree where
  home := ["work".toList]
  entries :=
    let capture := Entry.file (Utf8.encode "ur:bytes/drasrhdshp\n".toList)
    [ (["work".toList], .directory),
      (["a.txt".toList], capture),
      (["b.txt".toList], capture),
      (["b.expected".toList], .file (Utf8.encode " 2A \nand more".toList)),
      (["c.txt".toList, "work".toList], .file (Utf8.encode "no fragments".toList)) ]
  nodup := by decide
  way := by decide

theorem run_status_mixed :
    let arguments := ["/a.txt".toList, "../b.txt".toList, "c.txt".toList]
    let response := ((run {} arguments : StateM FileTree Response).run mixedFiles).1
    (∀ argument ∈ arguments, argument ≠ [] ∧ argument.head? ≠ some '-') ∧ response.status = 1 ∧
      (Text.lines (response.output.render false).toList).getLast? = some "Tests passed: 2/3".toList := by
  intro arguments response
  have hfiles : ∀ argument ∈ arguments, argument ≠ [] ∧ argument.head? ≠ some '-' := by decide
  obtain ⟨-, hzero, hstatus, hline, -⟩ := run_status {} mixedFiles hfiles
  have hcount : ((arguments.map Path.mk).countP fun path =>
      Passes ({} : Suite.Environment).settings mixedFiles path) = 2 := by
    decide +kernel
  refine ⟨hfiles, hstatus.resolve_left fun hpass => ?_, ?_⟩
  · obtain ⟨paths, hpaths, -, hall⟩ := hzero.1 hpass
    obtain rfl : arguments.map Path.mk = paths := Except.ok.inj hpaths
    rw [List.countP_eq_length.2 fun path hpath => decide_eq_true (hall path hpath)] at hcount
    exact absurd hcount (by decide)
  · have hlast := hline _ rfl
    rw [hcount] at hlast
    exact hlast.trans (by decide +kernel)

end UrReplay.CommandLine
