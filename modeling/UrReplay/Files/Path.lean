import UrReplay.Text.Basic
/-!
# UrReplay.Files.Path

Paths as text: names with slashes between them.

A path is cut without asking whether anything exists there. Doubled slashes, slashes at the end and
`.` between slashes say nothing, so they neither hold the file name nor stay in front of a new one.
A path begins with an *anchor*, which no cut removes: the root `/`, or a `.` that stands for the
directory it is in.

A path is text. Names that are not UTF-8 have no place here, nor has what becomes of them where a name
is matched or a golden file is named after one, which would put a replacement character in each.
-/

namespace UrReplay

/-- A path, as it is written. -/
structure Path where
  text : Text
  deriving Repr, DecidableEq

namespace Path

/-- The path as output. -/
def display (p : Path) : String := String.ofList p.text

/-- Whether a path starts at the root. -/
def isAbsolute (p : Path) : Bool := p.text.head? == some '/'

/-- The pieces between the slashes. -/
def pieces (p : Path) : List Text := Text.split '/' p.text

/-- Whether a piece says nothing: it leads from a directory to itself. -/
def isIdle (piece : Text) : Bool := piece == [] || piece == ['.']

/-- The anchor of a path, and the text after it. -/
def cutAnchor (p : Path) : Text × Text :=
  match p.text with
  | '/' :: rest => (['/'], rest)
  | ['.'] => (['.'], [])
  | '.' :: '/' :: rest => (['.'], '/' :: rest)
  | text => ([], text)

/-- The pieces of a text after the anchor, the last one first, from the last that says something
on. -/
def piecesFromEnd (text : Text) : List Text :=
  (Text.split '/' text).reverse.dropWhile isIdle

/-- The name of the file or directory that a path ends in; none if it ends in its anchor or in
`..`. -/
def fileName? (p : Path) : Option Text :=
  match piecesFromEnd p.cutAnchor.2 with
  | [] => none
  | last :: _ => if last = ['.', '.'] then none else some last

/-- The path in front of the piece that a path ends in. -/
def parent (p : Path) : Path :=
  let (anchor, rest) := p.cutAnchor
  let before := (piecesFromEnd rest).tail.dropWhile isIdle
  ⟨anchor ++ ['/'].intercalate before.reverse⟩

/-- A name put at the end of a path. An absolute name replaces the path. -/
def join (p : Path) (name : Text) : Path :=
  if name.head? = some '/' then ⟨name⟩
  else if p.text = [] ∨ p.text.getLast? = some '/' then ⟨p.text ++ name⟩
  else ⟨p.text ++ '/' :: name⟩

/-- A path with its file name replaced, or the name put at its end if it has none. -/
def withFileName (p : Path) (name : Text) : Path :=
  if p.fileName?.isSome then p.parent.join name else p.join name

end Path

end UrReplay
