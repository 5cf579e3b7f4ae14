import UrReplay.Golden.Recorder
import UrReplay.Proofs.Files.Write
/-!
# UrReplay.Proofs.Golden.Recorder

Golden files in a tree: what writing, comparing, recording and checking give, and what they make of the tree.
-/

namespace UrReplay.Golden

open FileTree (run_bind run_writeFile write_of_destination?_eq_none)

variable {naming : Naming} {outcome : Outcome} {payload : Bytes} (tree : FileTree) (path : Path)

theorem run_write (payload : Bytes) :
    (write path payload : StateM FileTree _).run tree =
      match tree.destination? path with
      | some location => (.ok (), tree.insert location (.file (Utf8.encode (render payload))))
      | none => (.error ⟨path⟩, tree) := by
  rw [write, run_bind, run_writeFile]
  cases hplace : tree.destination? path with
  | some location => rfl
  | none =>
    obtain ⟨e, he⟩ := write_of_destination?_eq_none hplace (Utf8.encode (render payload))
    simp only [he]
    rfl

theorem run_compare (payload : Bytes) :
    (compare path payload : StateM FileTree Check).run tree =
      (.ofFile path (tree.read path) payload, tree) := rfl

theorem run_record (h : outcome.payload = some payload) :
    (record naming outcome : StateM FileTree _).run tree =
      match tree.destination? (naming.goldenPath outcome.path) with
      | some location =>
        (.ok (some (naming.goldenPath outcome.path)),
          tree.insert location (.file (Utf8.encode (render payload))))
      | none => (.error ⟨naming.goldenPath outcome.path⟩, tree) := by
  simp only [record, h, run_bind, run_write]
  cases tree.destination? (naming.goldenPath outcome.path) with
  | some location => rfl
  | none => rfl

theorem run_check (h : outcome.payload = some payload) :
    (check naming outcome : StateM FileTree Check).run tree =
      (.ofFile (naming.goldenPath outcome.path) (tree.read (naming.goldenPath outcome.path)) payload,
        tree) := by
  simp only [check, h, run_compare]

end UrReplay.Golden
