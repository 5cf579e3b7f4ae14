import UrReplay.Golden.Content
/-!
# UrReplay.Golden.Check

Comparing a payload with the one that a golden file records.
-/

namespace UrReplay.Golden

/-- The result of a comparison. -/
inductive Check
  /-- The payload is the recorded one. -/
  | matched
  /-- The recorded payload is another one; the lengths of both, in bytes. -/
  | mismatched (expected actual : Nat)
  /-- There is no golden file. -/
  | missing
  /-- There is a golden file that cannot be read. -/
  | unreadable (reason : String)
  /-- There is nothing to compare. -/
  | skipped
  deriving Repr, DecidableEq

/-- Whether a check speaks against the payload. A missing golden file does not. -/
def Check.isFailure : Check → Bool
  | mismatched .. | unreadable _ => true
  | _ => false

/-- Compares a payload with the golden file at a path, as reading that went. -/
def Check.ofFile (path : Path) (file : Except FileError Bytes) (payload : Bytes) : Check :=
  match payloadOfFile path file with
  | .ok none => .missing
  | .ok (some expected) =>
    if expected = payload then .matched else .mismatched expected.length payload.length
  | .error e => .unreadable e.message

end UrReplay.Golden
