import UrReplay.Fountain.Decoder
/-!
# UrReplay.Fountain.InPlace

A fountain decoder that is changed in place, one step after another. Nothing puts an earlier state
back: what an action has done to the decoder stays done if the action is refused after that, or panics.
So it is the order of the steps alone that decides what a refused part leaves behind.
-/

namespace UrReplay.Fountain.Decoder

/-- An action on a decoder in place, which may end halfway. -/
abbrev Action (α : Type) := ExceptT Halt (StateM Decoder) α

/-- Settles which transfer a part belongs to: the one in progress, or its own one, which is in progress
from then on. -/
def join (part : Part) : Action Transfer := do
  match part.flaw? with
  | some refusal => throw (.refused refusal)
  | none =>
    match (← get).transfer with
    | none =>
      modify fun d => { d with transfer := some part.transfer }
      return part.transfer
    | some t =>
      match t.difference? part.transfer with
      | some parameter => throw (.refused (.foreign parameter))
      | none => return t

/-- Which fragments a part mixes. -/
def choose (part : Part) : Action Mix :=
  match part.mix? with
  | none => throw .panicked
  | some m => return m

/-- Receives a part in place. Once the transfer has ended, a part that belongs to it is not looked
into. -/
def receiveInPlace (part : Part) : Action Unit := do
  let t ← join part
  unless (← get).isComplete do
    let m ← choose part
    modify fun d => { d with queue := d.queue ++ [m] }
    modify fun d => d.settle t
    modify fun d => { d with received := d.received + 1 }

end UrReplay.Fountain.Decoder
