import UrReplay.Bytewords.Codec
import UrReplay.Fountain.Decoder
import UrReplay.Resource.Basic
/-!
# UrReplay.Resource.Decoder

Decodes the resources of one transfer. The first accepted text fixes the type. A text without a
place in a transfer is the whole payload; any other is a part for the fountain decoder, and its
header has to agree with the place that the text names. `receive` gives the next state or an error,
so a refused text changes nothing.
-/

namespace UrReplay.Resource

/-- Why a text is refused. -/
inductive ReceiveError
  | parse (e : ParseError)
  /-- Earlier texts had another type. -/
  | typeMismatch (expected found : Text)
  | body (e : Bytewords.Error)
  | header (e : Fountain.HeaderError)
  /-- The text names one place in the transfer, and the header of the part another. -/
  | positionMismatch (path carried : Position)
  /-- The fountain decoder refuses the part, or panics. -/
  | fountain (halt : Fountain.Halt)
  /-- The decoder has ended already. -/
  | alreadyComplete
  deriving Repr, DecidableEq

/-- A place as it is written in messages. -/
def Position.render (p : Position) : String := toString p.seqNum ++ "-" ++ toString p.seqLen

/-- The wording of an error. -/
def ReceiveError.message : ReceiveError → String
  | parse e => e.message
  | typeMismatch expected found =>
    "UR type `" ++ String.ofList found ++ "` does not match `" ++ String.ofList expected
      ++ "` from earlier parts"
  | body e => e.message
  | header e => e.message
  | positionMismatch path carried =>
    "part " ++ path.render ++ " in the UR path disagrees with header " ++ carried.render
  | fountain halt => halt.message
  | alreadyComplete => "decoder already holds a complete result"

/-- The place that the header of a part gives. -/
def Position.ofPart (part : Fountain.Part) : Position := ⟨part.seqNum, part.seqLen⟩

/-- Decodes the resources of one transfer. -/
structure Decoder where
  /-- The type that the first accepted text fixed. -/
  type : Option Text := none
  fountain : Fountain.Decoder := {}
  /-- The payload of a text that was whole in itself. -/
  single : Option Bytes := none

namespace Decoder

/-- A decoder that has not received anything. -/
def empty : Decoder := {}

instance : Inhabited Decoder := ⟨empty⟩

/-- Whether decoding has ended. -/
def isComplete (d : Decoder) : Bool := d.single.isSome || d.fountain.isComplete

/-- Whether decoding has ended with a payload. -/
def isSuccessful (d : Decoder) : Bool := d.single.isSome || d.fountain.isSuccessful

/-- The payload, once it is complete. -/
def message? (d : Decoder) : Option Bytes := d.single <|> d.fountain.message?

/-- What stands in the way: the checksum mismatch that a transfer has ended with, or the progress of
one that has not ended. -/
def status? (d : Decoder) : Option String :=
  match d.fountain.failure? with
  | some mismatch => some mismatch.message
  | none =>
    if d.isComplete then none
    else
      d.fountain.seqLen?.map fun seqLen =>
        toString d.fountain.recovered.size ++ " of " ++ toString seqLen
          ++ " fragments recovered from " ++ toString d.fountain.received ++ " parts"

/-- Fixes the type, if it is not fixed yet. -/
def withType (d : Decoder) (type : Text) : Decoder := { d with type := d.type <|> some type }

/-- Whether a type agrees with the one that is fixed. -/
def checkType (d : Decoder) (type : Text) : Except ReceiveError Unit :=
  match d.type with
  | some expected => if expected = type then .ok () else .error (.typeMismatch expected type)
  | none => .ok ()

/-- Takes in the decoded body of a part. -/
def receivePart (d : Decoder) (position : Position) (body : Bytes) :
    Except ReceiveError Decoder := do
  let part ← (Fountain.Part.ofCbor body).mapError .header
  if position ≠ .ofPart part then
    .error (.positionMismatch position (.ofPart part))
  else
    let fountain ← (d.fountain.receive part).mapError .fountain
    .ok { d with fountain }

/-- Takes in the decoded body of a resource. -/
def receiveBody (d : Decoder) (position : Option Position) (body : Bytes) :
    Except ReceiveError Decoder :=
  match position with
  | none => .ok { d with single := some body }
  | some position => d.receivePart position body

/-- Receives a text. -/
def receive (d : Decoder) (t : Text) : Except ReceiveError Decoder :=
  if d.isComplete then .error .alreadyComplete
  else do
    let resource ← (parse t).mapError .parse
    d.checkType resource.type
    let body ← (Bytewords.decode .minimal resource.body).mapError .body
    let d ← d.receiveBody resource.position body
    .ok (d.withType resource.type)

end Decoder

end UrReplay.Resource
