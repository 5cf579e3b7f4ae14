import UrReplay.Text.Blank
import UrReplay.Text.Decimal
/-!
# UrReplay.Resource.Basic

Uniform resources: the texts `ur:<type>/<body>` and, for one part of a transfer,
`ur:<type>/<seqNum>-<seqLen>/<body>`.

Blanks around the text and ASCII letter case do not count. The type is judged before the number of
components that follow it, and that before the sequence component; the body is not looked into.
-/

namespace UrReplay.Resource

/-- What every resource begins with. -/
def scheme : Text := ['u', 'r', ':']

/-- A place in a transfer: part number `seqNum` of a message in `seqLen` fragments. -/
structure Position where
  seqNum : UInt32
  seqLen : Nat
  deriving Repr, DecidableEq

end Resource

/-- A resource cut into its components. -/
structure Resource where
  type : Text
  /-- The place in a transfer; none for a resource that is whole in itself. -/
  position : Option Resource.Position
  /-- The body, in bytewords. -/
  body : Text
  deriving Repr, DecidableEq

namespace Resource

/-- Whether a character may stand in a type. -/
def isTypeChar (c : Char) : Bool :=
  ('a' ≤ c && c ≤ 'z') || ('0' ≤ c && c ≤ '9') || c == '-'

/-- Whether a text is a type: letters, digits and hyphens, with no hyphen at either end. -/
def isValidType (t : Text) : Bool :=
  !t.isEmpty && t.head? != some '-' && t.getLast? != some '-' && t.all isTypeChar

/-- Why a text is not a resource. -/
inductive ParseError
  | missingScheme
  | invalidType (type : Text)
  /-- The number of components after the type is neither one nor two. -/
  | invalidPath (components : Nat)
  | invalidSequence (component : Text)
  deriving Repr, DecidableEq

/-- The wording of an error. -/
def ParseError.message : ParseError → String
  | missingScheme => "missing `ur:` scheme"
  | invalidType type => "invalid UR type `" ++ String.ofList type ++ "`"
  | invalidPath components =>
    "UR path has " ++ toString components ++ " components, expected 1 or 2 after the type"
  | invalidSequence component =>
    "invalid sequence component `" ++ String.ofList component ++ "`"

/-- The place that a sequence component gives: two numbers that are not zero, of at most 32 and at
most 64 bits, with a hyphen between them. -/
def Position.ofText? (component : Text) : Option Position := do
  let (first, second) ← component.cutAt? '-'
  let seqNum ← Decimal.decode? UInt32.size first
  let seqLen ← Decimal.decode? UInt64.size second
  if seqNum = 0 ∨ seqLen = 0 then none else some ⟨.ofNat seqNum, seqLen⟩

/-- The resource that a type and the components after it give. -/
def ofComponents (type : Text) : List Text → Except ParseError Resource
  | [body] => .ok ⟨type, none, body⟩
  | [sequence, body] =>
    match Position.ofText? sequence with
    | some position => .ok ⟨type, some position, body⟩
    | none => .error (.invalidSequence sequence)
  | path => .error (.invalidPath path.length)

/-- The resource that a text without blanks around it and in lower case is. -/
def parseLower (t : Text) : Except ParseError Resource :=
  match scheme.isPrefixOf? t with
  | none => .error .missingScheme
  | some rest =>
    match Text.split '/' rest with
    | [] => .error (.invalidPath 0)
    | type :: path =>
      if isValidType type then ofComponents type path else .error (.invalidType type)

/-- The resource that a text is. -/
def parse (t : Text) : Except ParseError Resource := parseLower t.trim.lower

end Resource

end UrReplay
