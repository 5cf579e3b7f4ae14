import UrReplay.Diagnostic
import UrReplay.Discovery.Pattern
import UrReplay.Files.Access
import UrReplay.Text.Order
/-!
# UrReplay.Discovery.Basic

Finding the capture files in a directory. Only files that lie directly in the directory count, not
directories, links or anything below. Those whose names match the primary pattern are taken, or, if
there is none, those that match the legacy pattern, in the order of their names.
-/

namespace UrReplay.Discovery

/-- The patterns for the names of capture files. -/
structure Patterns where
  primary : Pattern
  /-- Tried only if no name matches the primary pattern. -/
  legacy : Pattern
  deriving Repr, DecidableEq

/-- The patterns that captures are usually named by. -/
def Patterns.standard : Patterns where
  primary := ⟨"*UR_fragments.txt".toList⟩
  legacy := ⟨"fragments_*.txt".toList⟩

/-- Why no capture files are found. -/
inductive Error
  /-- There is no directory, or no file in it has a name that matches. -/
  | noTestFiles (directory : Path)
  /-- The directory cannot be reached. -/
  | inaccessible (directory : Path)
  deriving Repr, DecidableEq

/-- The names of the files in a listing that match a pattern, in order. -/
def matchingNames (pattern : Pattern) (listing : List Listed) : List Text :=
  let captures := listing.filter fun entry => entry.isFile && pattern.accepts entry.name
  (captures.map (·.name)).mergeSort Text.le

/-- The names of the capture files in a listing, in order. -/
def captureNames (patterns : Patterns) (listing : List Listed) : List Text :=
  match matchingNames patterns.primary listing with
  | [] => matchingNames patterns.legacy listing
  | names => names

/-- The capture files in a directory, as listing it went. -/
def captures (patterns : Patterns) (directory : Path) :
    Except FileError (List Listed) → Except Error (List Path)
  | .error .inaccessible => .error (.inaccessible directory)
  | .error .notFound => .error (.noTestFiles directory)
  | .ok listing =>
    match captureNames patterns listing with
    | [] => .error (.noTestFiles directory)
    | names => .ok (names.map directory.join)

/-- Finds the capture files in a directory. -/
def discover {m : Type → Type} [Monad m] [MonadFiles m] (patterns : Patterns) (directory : Path) :
    m (Except Error (List Path)) :=
  return captures patterns directory (← MonadFiles.listDirectory directory)

/-- How an error is shown. -/
def Error.diagnostic : Error → Diagnostic
  | noTestFiles directory =>
    { message := "no test files found in " ++ directory.display
      code := some "ur_verify::discovery::no_test_files"
      help := some ("add `*UR_fragments.txt` files (or legacy `fragments_*.txt`), or pass files "
        ++ "explicitly") }
  | inaccessible directory =>
    { message := "failed to scan test directory " ++ directory.display
      code := some "ur_verify::discovery::walk" }

end UrReplay.Discovery
