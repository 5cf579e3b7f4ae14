import UrReplay.Capture.Outcome
import UrReplay.Golden.Check
import UrReplay.Golden.Naming
/-!
# UrReplay.Golden.Recorder

Golden files in a file system: writing them, reading them, and doing either for the outcome of a
capture. An outcome without a payload is neither recorded nor checked.
-/

namespace UrReplay.Golden

variable {m : Type → Type} [Monad m] [MonadFiles m]

/-- Writes the golden file for a payload. -/
def write (path : Path) (payload : Bytes) : m (Except WriteError Unit) := do
  match ← MonadFiles.writeFile path (Utf8.encode (render payload)) with
  | .ok () => return .ok ()
  | .error _ => return .error ⟨path⟩

/-- The payload in a golden file; none if it does not exist. -/
def read (path : Path) : m (Except ReadError (Option Bytes)) :=
  return payloadOfFile path (← MonadFiles.readFile path)

/-- Compares a payload with a golden file. -/
def compare (path : Path) (payload : Bytes) : m Check :=
  return Check.ofFile path (← MonadFiles.readFile path) payload

/-- Writes the golden file for an outcome; gives its path if there is one to write. -/
def record (naming : Naming) (outcome : Outcome) : m (Except WriteError (Option Path)) := do
  match outcome.payload with
  | none => return .ok none
  | some payload =>
    let path := naming.goldenPath outcome.path
    match ← write path payload with
    | .ok () => return .ok (some path)
    | .error e => return .error e

/-- Compares an outcome with its golden file. -/
def check (naming : Naming) (outcome : Outcome) : m Check := do
  match outcome.payload with
  | none => return .skipped
  | some payload => compare (naming.goldenPath outcome.path) payload

end UrReplay.Golden
