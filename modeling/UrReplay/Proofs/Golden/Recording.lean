import UrReplay.Proofs.Files.ReadBack
import UrReplay.Proofs.Golden.Content
import UrReplay.Proofs.Golden.Recorder
/-!
# UrReplay.Proofs.Golden.Recording

Recording an outcome and checking it afterwards, for every naming, tree and outcome with a payload. One file
changes, and it is the one that the check reads. If the payload is not empty the file is a golden file in form
(`IsGoldenLine`), and the outcome matches it (`record_checked`). The empty payload has no digits: what is
recorded for it has the marker alone, and the check takes that for an empty golden file.
-/

namespace UrReplay.Golden

variable {naming : Naming} {outcome : Outcome} {payload : Bytes} {tree : FileTree} {path : Path}
  {location : Location}

/-- A golden file in form: one line, ended by a line feed, with the marker and at least one hexadecimal digit,
in lower case. -/
def IsGoldenLine (content : Text) : Prop :=
  ∃ ds : Text, ds ≠ [] ∧ (∀ c ∈ ds, ('0' ≤ c ∧ c ≤ '9') ∨ ('a' ≤ c ∧ c ≤ 'f')) ∧
    content = marker ++ ds ++ ['\n']

theorem isGoldenLine_render_iff : IsGoldenLine (render payload) ↔ payload ≠ [] := by
  constructor
  · intro h
    obtain ⟨ds, hne, -, hcontent⟩ := h
    rintro rfl
    have hdigits : Hex.encode [] = ds := by
      rw [render, List.append_cancel_right_eq, List.append_cancel_left_eq] at hcontent
      exact hcontent
    exact hne hdigits.symm
  · intro h
    refine ⟨Hex.encode payload, mt Hex.encode_eq_nil_iff.1 h, fun c hc => ?_, rfl⟩
    obtain ⟨n, hn, rfl⟩ := Hex.exists_of_mem_encode hc
    have hall : ∀ k : Fin 16, ('0' ≤ Hex.digit k ∧ Hex.digit k ≤ '9') ∨
        ('a' ≤ Hex.digit k ∧ Hex.digit k ≤ 'f') := by decide
    exact hall ⟨n, hn⟩

/-- What is written for the empty payload has no digits on its line. -/
theorem ofFile_render_nil :
    Check.ofFile path (.ok (Utf8.encode (render []))) payload =
      .unreadable ("golden file " ++ path.display ++ " is empty") := by
  have hparse : parse (render []) = .error .empty := by
    rw [parse, digits_render]
    rfl
  simp only [Check.ofFile, payloadOfFile, Utf8.decode?_encode, hparse, ReadError.message, ReadError.diagnostic]

/-- The path that is given is the one where the file has gone. -/
theorem exists_destination?_of_record (hpayload : outcome.payload = some payload)
    (h : ((record naming outcome : StateM FileTree _).run tree).1 = .ok (some path)) :
    path = naming.goldenPath outcome.path ∧ ∃ location, tree.destination? path = some location ∧
      ((record naming outcome : StateM FileTree _).run tree).2 =
        tree.insert location (.file (Utf8.encode (render payload))) := by
  rw [run_record tree hpayload] at h ⊢
  cases hplace : tree.destination? (naming.goldenPath outcome.path) with
  | none =>
    simp only [hplace] at h
    exact absurd h nofun
  | some location =>
    simp only [hplace, Except.ok.injEq, Option.some.injEq] at h
    subst h
    exact ⟨rfl, location, hplace, rfl⟩

/-- What has been recorded is read back, and that is what is checked. -/
theorem run_check_of_record (hpayload : outcome.payload = some payload)
    (h : ((record naming outcome : StateM FileTree _).run tree).1 = .ok (some path)) :
    let after := ((record naming outcome : StateM FileTree _).run tree).2
    after.read path = .ok (Utf8.encode (render payload)) ∧
      (check naming outcome : StateM FileTree Check).run after =
        (.ofFile path (.ok (Utf8.encode (render payload))) payload, after) := by
  intro after
  obtain ⟨rfl, location, hplace, hafter⟩ := exists_destination?_of_record hpayload h
  have hread : after.read (naming.goldenPath outcome.path) = .ok (Utf8.encode (render payload)) := by
    rw [show after = _ from hafter, FileTree.read_insert hplace]
  exact ⟨hread, by rw [run_check after hpayload, hread]⟩

/-- What recording leaves behind. If an outcome with a payload is recorded at a path, the path leads to a file
with the marker and the digits of the payload on one line, nothing else in the tree has changed, and neither a
directory nor a link has been replaced. If the payload is not empty this is a golden file in form, and checking
the outcome finds that it matches; if the payload is empty it is not, and checking finds an empty golden
file. -/
theorem record_checked (naming : Naming) (tree : FileTree) (outcome : Outcome) (payload : Bytes) (path : Path)
    (hpayload : outcome.payload = some payload)
    (hrecord : ((record naming outcome : StateM FileTree _).run tree).1 = .ok (some path)) :
    let after := ((record naming outcome : StateM FileTree _).run tree).2
    let content := marker ++ Hex.encode payload ++ ['\n']
    path = naming.goldenPath outcome.path ∧
      (∃ location, after.resolve path = .ok (.file location (Utf8.encode content)) ∧
        after.get? location = some (.file (Utf8.encode content)) ∧
        (∀ other, other ≠ location → after.get? other = tree.get? other) ∧
        tree.get? location ≠ some .directory ∧ ∀ target, tree.get? location ≠ some (.link target)) ∧
      after.read path = .ok (Utf8.encode content) ∧
      (payload ≠ [] → IsGoldenLine content ∧
        (check naming outcome : StateM FileTree Check).run after = (.matched, after)) ∧
      (payload = [] → ¬IsGoldenLine content ∧
        (check naming outcome : StateM FileTree Check).run after =
          (.unreadable ("golden file " ++ path.display ++ " is empty"), after)) := by
  intro after content
  obtain ⟨hread, hcheck⟩ := run_check_of_record hpayload hrecord
  obtain ⟨hpath, location, hplace, hafter⟩ := exists_destination?_of_record hpayload hrecord
  replace hafter : after = tree.insert location (.file (Utf8.encode (render payload))) := hafter
  have hfree := FileTree.free_of_destination? hplace
  refine ⟨hpath, ⟨location, ?_, ?_, fun other hother => ?_, hfree.ne_directory, hfree.ne_link⟩, hread, ?_, ?_⟩
  · rw [hafter]
    exact FileTree.resolve_insert hplace _
  · rw [hafter]
    exact hfree.get?_insert_self
  · rw [hafter, FileTree.get?_insert hfree.not_isFixed, if_neg hother]
  · intro hne
    refine ⟨isGoldenLine_render_iff.2 hne, ?_⟩
    rw [hcheck, ofFile_of_spells (spells_render hne)]
  · rintro rfl
    refine ⟨fun hform => isGoldenLine_render_iff.1 hform rfl, ?_⟩
    rw [hcheck, ofFile_render_nil]

/-- An empty directory, and beside it a link into it where the golden file of `/a.frames` goes. The working
directory is another one. -/
def linkedAway : FileTree where
  home := ["work".toList]
  entries :=
    [ (["work".toList], .directory),
      (["stored".toList], .directory),
      (["a.golden".toList], .link ⟨"stored/a".toList⟩) ]
  nodup := by decide
  way := by decide

/-- Recorded through the link, two bytes match and no byte does not. -/
theorem record_checked_link :
    let naming : Naming := ⟨[⟨".frames".toList, ".golden".toList⟩], []⟩
    let outcome (payload : Bytes) : Outcome :=
      ⟨⟨1, 1, true, true, some payload, none⟩, ⟨"/a.frames".toList⟩⟩
    let recorded (payload : Bytes) := (record naming (outcome payload) : StateM FileTree _).run linkedAway
    let path : Path := ⟨"/a.golden".toList⟩
    (recorded [1, 0xFF]).1 = .ok (some path) ∧ (recorded []).1 = .ok (some path) ∧
      (recorded [1, 0xFF]).2.read path = .ok (Utf8.encode "hex:01ff\n".toList) ∧
      (recorded [1, 0xFF]).2.get? ["a.golden".toList] = some (.link ⟨"stored/a".toList⟩) ∧
      (check naming (outcome [1, 0xFF]) : StateM FileTree Check).run (recorded [1, 0xFF]).2 =
        (.matched, (recorded [1, 0xFF]).2) ∧
      (check naming (outcome []) : StateM FileTree Check).run (recorded []).2 =
        (.unreadable "golden file /a.golden is empty", (recorded []).2) := by
  intro naming outcome recorded path
  have htwo : (recorded [1, 0xFF]).1 = .ok (some path) := by decide +kernel
  have hnone : (recorded []).1 = .ok (some path) := by decide +kernel
  obtain ⟨-, -, hread, hmatched, -⟩ :=
    record_checked naming linkedAway (outcome [1, 0xFF]) [1, 0xFF] path rfl htwo
  obtain ⟨-, -, -, -, hempty⟩ := record_checked naming linkedAway (outcome []) [] path rfl hnone
  exact ⟨htwo, hnone, hread, by decide +kernel, (hmatched (by decide)).2, (hempty rfl).2⟩

/-- Not everything that is recorded is a golden file in form that matches: what is recorded for the empty
payload is not. -/
theorem empty_not_checked :
    ¬∀ (naming : Naming) (tree : FileTree) (outcome : Outcome) (payload : Bytes) (path : Path),
        outcome.payload = some payload →
        ((record naming outcome : StateM FileTree _).run tree).1 = .ok (some path) →
          let after := ((record naming outcome : StateM FileTree _).run tree).2
          (∃ content, after.read path = .ok (Utf8.encode content) ∧ IsGoldenLine content) ∧
            ((check naming outcome : StateM FileTree Check).run after).1 = .matched := by
  intro hall
  let outcome : Outcome := ⟨⟨1, 1, true, true, some [], none⟩, ⟨"a.UR_fragments.txt".toList⟩⟩
  let path : Path := ⟨"a.UR_object.txt".toList⟩
  have hrecord : ((record .standard outcome : StateM FileTree _).run (.empty [])).1 =
      .ok (some path) := by decide +kernel
  obtain ⟨-, hmatched⟩ := hall .standard (.empty []) outcome [] path rfl hrecord
  rw [(run_check_of_record rfl hrecord).2, ofFile_render_nil] at hmatched
  exact absurd hmatched nofun

end UrReplay.Golden
