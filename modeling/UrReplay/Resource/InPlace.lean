import UrReplay.Fountain.InPlace
import UrReplay.Resource.Decoder
/-!
# UrReplay.Resource.InPlace

A decoder of resources that is changed in place, one step after another, as a session drives it. The
payload, the fountain decoder inside and the type are each changed on their own, and nothing is put
back if a later step is refused.
-/

namespace UrReplay.Resource.Decoder

/-- An action on a decoder in place, which may be refused halfway. -/
abbrev Action (α : Type) := ExceptT ReceiveError (StateM Decoder) α

/-- An action on the fountain decoder inside. -/
def onFountain {α : Type} (action : Fountain.Decoder.Action α) : Action α := fun d =>
  let (result, fountain) := (action.run.run d.fountain).run
  (result.mapError .fountain, { d with fountain })

/-- Takes in the decoded body of a part in place. -/
def receivePartInPlace (position : Position) (body : Bytes) : Action Unit := do
  let part ← MonadExcept.ofExcept ((Fountain.Part.ofCbor body).mapError ReceiveError.header)
  if position ≠ .ofPart part then
    throw (.positionMismatch position (.ofPart part))
  else
    onFountain (Fountain.Decoder.receiveInPlace part)

/-- Takes in the decoded body of a resource in place. -/
def receiveBodyInPlace (position : Option Position) (body : Bytes) : Action Unit :=
  match position with
  | none => modify fun d => { d with single := some body }
  | some position => receivePartInPlace position body

/-- Receives a text in place. -/
def receiveInPlace (t : Text) : Action Unit := do
  if (← get).isComplete then throw .alreadyComplete
  else
    let resource ← MonadExcept.ofExcept ((parse t).mapError ReceiveError.parse)
    MonadExcept.ofExcept ((← get).checkType resource.type)
    let body ← MonadExcept.ofExcept
      ((Bytewords.decode .minimal resource.body).mapError ReceiveError.body)
    receiveBodyInPlace resource.position body
    modify fun d => d.withType resource.type

end UrReplay.Resource.Decoder
