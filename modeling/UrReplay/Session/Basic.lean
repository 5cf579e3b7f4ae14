import UrReplay.Bytes
import UrReplay.Capture.Fragment
/-!
# UrReplay.Session.Basic

Feeding the fragments of a capture to a decoder.

A session submits one fragment after another until the decoder accepts one and is then complete, or
until there are no more. A rejected fragment is skipped and does not count as consumed, whatever it
did to the decoder. What the session observes is read off the decoder at the end.
-/

namespace UrReplay

/-- A decoder that is fed one fragment at a time. `σ` holds its states, and `ε` the reasons why it
rejects a fragment. -/
class FragmentDecoder (σ : Type) (ε : outParam Type) where
  /-- Takes in a fragment. A rejected one may change the state, too. -/
  submit : σ → Fragment → Except ε Unit × σ
  isComplete : σ → Bool
  isSuccessful : σ → Bool
  /-- What has been decoded; asked for only when decoding is complete and successful. -/
  payload? : σ → Option Bytes
  /-- Where decoding stands, for a session that has not succeeded. -/
  statusDetail? : σ → Option String := fun _ => none

namespace Session

/-- What a session observes. -/
structure Result where
  /-- The number of fragments. -/
  available : Nat
  /-- The number of accepted fragments. -/
  consumed : Nat
  /-- Whether the decoder is complete. -/
  completed : Bool
  /-- Whether there is a payload. -/
  succeeded : Bool
  payload : Option Bytes
  /-- The status of the decoder, if there is no payload. -/
  detail : Option String
  deriving Repr, DecidableEq

section

variable {σ ε : Type} [FragmentDecoder σ ε]

/-- The number of accepted fragments, counted on from `consumed`, and the decoder at the end. -/
def feedFrom (consumed : Nat) (decoder : σ) : List Fragment → Nat × σ
  | [] => (consumed, decoder)
  | fragment :: rest =>
    match FragmentDecoder.submit decoder fragment with
    | (.error _, decoder) => feedFrom consumed decoder rest
    | (.ok (), decoder) =>
      if FragmentDecoder.isComplete decoder then (consumed + 1, decoder)
      else feedFrom (consumed + 1) decoder rest

/-- Feeds fragments to a decoder: how many it accepted, and what became of it. -/
def feed (decoder : σ) (fragments : List Fragment) : Nat × σ := feedFrom 0 decoder fragments

/-- The payload of a decoder that is complete and successful. -/
def finalPayload? (decoder : σ) : Option Bytes :=
  if FragmentDecoder.isComplete decoder && FragmentDecoder.isSuccessful decoder then
    FragmentDecoder.payload? decoder
  else none

/-- Runs a session with a given decoder. -/
def runWith (decoder : σ) (fragments : List Fragment) : Result :=
  let (consumed, decoder) := feed decoder fragments
  let payload := finalPayload? decoder
  { available := fragments.length
    consumed
    completed := FragmentDecoder.isComplete decoder
    succeeded := payload.isSome
    payload
    detail := if payload.isNone then FragmentDecoder.statusDetail? decoder else none }

/-- Runs a session with a fresh decoder. -/
def run (σ : Type) [FragmentDecoder σ ε] [Inhabited σ] (fragments : List Fragment) : Result :=
  runWith (default : σ) fragments

end

end Session

end UrReplay
