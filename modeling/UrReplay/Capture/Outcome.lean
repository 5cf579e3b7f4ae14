import UrReplay.Files.Access
import UrReplay.Session.Basic
import UrReplay.Text.Utf8
/-!
# UrReplay.Capture.Outcome

What became of a capture file: the session with the fragments that it holds.
-/

namespace UrReplay

/-- The fragments in a file, as reading it went. A file that cannot be read, or that is not UTF-8
throughout, has none. -/
def Fragment.ofFile : Except FileError Bytes → List Fragment
  | .ok content => ((Utf8.decode? content).map ofText).getD []
  | .error _ => []

/-- The session with a capture file. -/
structure Outcome extends Session.Result where
  path : Path
  deriving Repr, DecidableEq

namespace Outcome

variable {ε : Type}

/-- The outcome for a file, as reading it went, with a fresh decoder. -/
def ofFile (σ : Type) [FragmentDecoder σ ε] [Inhabited σ] (path : Path)
    (file : Except FileError Bytes) : Outcome :=
  { Session.run σ (Fragment.ofFile file) with path }

end Outcome

end UrReplay
