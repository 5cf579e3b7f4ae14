import UrReplay.Diagnostic
import UrReplay.Files.Access
import UrReplay.Text.Blank
import UrReplay.Text.Hex
import UrReplay.Text.Lines
/-!
# UrReplay.Golden.Content

What a golden file holds: the payload of a capture, as `hex:` and lower-case digits on one line.

Reading is more generous than writing. Only the first line counts; blanks around it and the marker
are optional, and digits may be of either case. A file that does not exist is no error, because a
capture need not have a golden file.
-/

namespace UrReplay.Golden

/-- What stands in front of the digits. -/
def marker : Text := ['h', 'e', 'x', ':']

/-- The content of the golden file for a payload. -/
def render (payload : Bytes) : Text := marker ++ Hex.encode payload ++ ['\n']

/-- Why the content of a golden file cannot be read. -/
inductive Fault
  /-- The file cannot be read, or is not UTF-8. -/
  | unreadable
  /-- There are no digits. -/
  | empty
  | notHex (reason : Hex.Error)
  deriving Repr, DecidableEq

/-- A golden file that exists and cannot be read. -/
structure ReadError where
  path : Path
  fault : Fault
  deriving Repr, DecidableEq

/-- A golden file that cannot be written. -/
structure WriteError where
  path : Path
  deriving Repr, DecidableEq

/-- The digits in a golden file. -/
def digits (content : Text) : Text :=
  let line := (content.lines.head?.getD []).trim
  (marker.isPrefixOf? line).getD line

/-- The payload that the text of a golden file gives. -/
def parse (content : Text) : Except Fault Bytes :=
  if digits content = [] then .error .empty else (Hex.decode (digits content)).mapError .notHex

/-- The payload in a golden file, as reading it went; none if it does not exist. -/
def payloadOfFile (path : Path) : Except FileError Bytes → Except ReadError (Option Bytes)
  | .error .notFound => .ok none
  | .error .inaccessible => .error ⟨path, .unreadable⟩
  | .ok bytes =>
    match Utf8.decode? bytes with
    | none => .error ⟨path, .unreadable⟩
    | some content =>
      match parse content with
      | .ok payload => .ok (some payload)
      | .error fault => .error ⟨path, fault⟩

/-! ### Messages -/

/-- How an error is shown. -/
def ReadError.diagnostic (e : ReadError) : Diagnostic :=
  match e.fault with
  | .unreadable =>
    { message := "failed to read golden file " ++ e.path.display
      code := some "ur_verify::golden::read" }
  | .empty =>
    { message := "golden file " ++ e.path.display ++ " is empty"
      code := some "ur_verify::golden::empty" }
  | .notHex _ =>
    { message := "golden file " ++ e.path.display ++ " does not hold a hex payload"
      code := some "ur_verify::golden::hex"
      help := some "the first line should look like `hex:0a1b2c...`" }

/-- The wording of an error. -/
def ReadError.message (e : ReadError) : String := e.diagnostic.message

/-- How an error is shown. -/
def WriteError.diagnostic (e : WriteError) : Diagnostic where
  message := "failed to write golden file " ++ e.path.display
  code := some "ur_verify::golden::write"

/-- The wording of an error. -/
def WriteError.message (e : WriteError) : String := e.diagnostic.message

end UrReplay.Golden
