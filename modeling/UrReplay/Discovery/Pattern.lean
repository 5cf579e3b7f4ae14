import UrReplay.Text.Basic
/-!
# UrReplay.Discovery.Pattern

Patterns for file names. A star stands for any run of characters, which may be empty; every other
character stands for itself, and the whole name has to match.

The stars cut a pattern into pieces. The first piece must begin the name, and the last must end it;
each piece between them is taken at its first occurrence after the piece before. That loses no
match, because an earlier occurrence leaves more of the name to the pieces that follow.
-/

namespace UrReplay.Discovery

/-- A pattern for file names. -/
structure Pattern where
  text : Text
  deriving Repr, DecidableEq

namespace Pattern

/-- What follows the first occurrence of a piece. -/
def afterFirst? (piece : Text) : Text → Option Text
  | [] => if piece = [] then some [] else none
  | c :: rest =>
    match piece.isPrefixOf? (c :: rest) with
    | some after => some after
    | none => afterFirst? piece rest

/-- Whether the rest of a name matches the pieces that follow a star. -/
def acceptsAfterStar : List Text → Text → Bool
  | [], _ => false
  | [last], rest => last.isSuffixOf rest
  | piece :: next :: more, rest =>
    match afterFirst? piece rest with
    | some after => acceptsAfterStar (next :: more) after
    | none => false

/-- Whether a name matches the pieces of a pattern. -/
def acceptsPieces : List Text → Text → Bool
  | [], _ => false
  | [only], name => only == name
  | first :: next :: more, name =>
    match first.isPrefixOf? name with
    | some rest => acceptsAfterStar (next :: more) rest
    | none => false

/-- Whether a name matches a pattern. -/
def accepts (pattern : Pattern) (name : Text) : Bool :=
  acceptsPieces (Text.split '*' pattern.text) name

end Pattern

end UrReplay.Discovery
