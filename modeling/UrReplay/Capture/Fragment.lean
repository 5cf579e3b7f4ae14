import UrReplay.Text.Lines
import UrReplay.Resource.Basic
/-!
# UrReplay.Capture.Fragment

The fragments in a recorded capture. A capture is loosely formatted text: lists, quoted strings, log
lines. A line holds at most one fragment, which begins at the first `ur:` in any letter case and
ends before the first delimiter.
-/

namespace UrReplay

/-- The text of one resource, as it stands in a capture. -/
structure Fragment where
  text : Text
  deriving Repr, DecidableEq

namespace Fragment

/-- Whether a character ends a fragment. -/
def isDelimiter (c : Char) : Bool := c == '"' || c == ',' || c == '\r' || c == '\n'

/-- Whether a text begins with the marker of a fragment, in any letter case. -/
def hasMarker (t : Text) : Bool := Text.lower (t.take Resource.scheme.length) == Resource.scheme

/-- The part of a line from the first marker on. -/
def fromMarker? : Text → Option Text
  | [] => none
  | c :: rest => if hasMarker (c :: rest) then some (c :: rest) else fromMarker? rest

/-- The fragment in a line. A marker that has nothing before the next delimiter is none. -/
def ofLine? (line : Text) : Option Fragment := do
  let tail ← fromMarker? line
  let token := tail.takeWhile (!isDelimiter ·)
  if token.length ≤ Resource.scheme.length then none else some ⟨token⟩

/-- The fragments in a text, in the order of its lines. -/
def ofText (t : Text) : List Fragment := t.lines.filterMap ofLine?

end Fragment

end UrReplay
