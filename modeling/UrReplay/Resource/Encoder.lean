import UrReplay.Bytewords.Codec
import UrReplay.Fountain.Encoder
import UrReplay.Resource.Basic
/-!
# UrReplay.Resource.Encoder

Writes payloads as resources. A payload that fits in one fragment is always written as one text
that is whole in itself; any other is sent part by part, without end.
-/

namespace UrReplay.Resource

/-- Why a payload cannot be written. -/
inductive EncodeError
  | invalidType (type : Text)
  | cut (e : Fountain.CutError)
  deriving Repr, DecidableEq

/-- The wording of an error. -/
def EncodeError.message : EncodeError → String
  | invalidType type => (ParseError.invalidType type).message
  | cut e => e.message

/-- The text for a payload, under a type that has been checked. -/
def renderSingle (type : Text) (payload : Bytes) : Text :=
  scheme ++ type ++ '/' :: Bytewords.encode .minimal payload

/-- The text for a part, under a type that has been checked. -/
def renderPart (type : Text) (part : Fountain.Part) : Text :=
  scheme ++ type ++ '/' :: Decimal.encode part.seqNum.toNat ++ '-' :: Decimal.encode part.seqLen
    ++ '/' :: Bytewords.encode .minimal part.toCbor

/-- Writes a payload as one text. -/
def encodeSingle (type : Text) (payload : Bytes) : Except EncodeError Text :=
  if isValidType type then .ok (renderSingle type payload) else .error (.invalidType type)

/-- Sends a payload text by text. -/
structure Encoder where
  type : Text
  payload : Bytes
  fountain : Fountain.Encoder

namespace Encoder

/-- The encoder of a payload that has not sent any text. -/
def ofPayload (type : Text) (payload : Bytes) (maxFragmentLen : Nat) :
    Except EncodeError Encoder :=
  if isValidType type then
    match Fountain.Encoder.ofMessage payload maxFragmentLen with
    | .ok fountain => .ok ⟨type, payload, fountain⟩
    | .error e => .error (.cut e)
  else .error (.invalidType type)

/-- The number of fragments. -/
def seqLen (e : Encoder) : Nat := e.fountain.seqLen

/-- Sends the next text. A payload of one fragment is sent over and over again. -/
def next (e : Encoder) : Text × Encoder :=
  if e.fountain.isSinglePart then (renderSingle e.type e.payload, e)
  else
    let (part, fountain) := e.fountain.next
    (renderPart e.type part, { e with fountain })

end Encoder

end UrReplay.Resource
