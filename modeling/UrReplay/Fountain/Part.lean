import UrReplay.Cbor.Item
import UrReplay.Fountain.IndexSet
import UrReplay.Random.Sampling
/-!
# UrReplay.Fountain.Part

The parts of a fountain-coded transfer.

A message is cut into `seqLen` fragments of equal length. Part number `seqNum` carries the exclusive
or of some of them: the parts up to `seqLen` carry one fragment each, in order, and every later part
carries a pseudo-random choice that its number and the checksum of the message decide. So both ends
agree on what a part mixes without sending it.

A part travels as a CBOR array of five fields. Reading accepts every CBOR spelling of the fields and
ignores what follows the array; writing uses the shortest one.
-/

namespace UrReplay.Fountain

/-- One part of a transfer. -/
structure Part where
  seqNum : UInt32
  /-- How many fragments the message is cut into. -/
  seqLen : Nat
  /-- The length of the message, without the padding of its last fragment. -/
  messageLen : Nat
  /-- The check value of the message. -/
  checksum : UInt32
  data : Bytes
  deriving Repr, DecidableEq

/-! ### What a part mixes -/

/-- The generator that decides what a part mixes. -/
def mixingGenerator (seqNum checksum : UInt32) : Xoshiro :=
  .ofSeed (Bytes.bigEndian 4 seqNum.toNat ++ Bytes.bigEndian 4 checksum.toNat)

/-- The indexes of the fragments that part `seqNum` mixes, in the order in which they are drawn. There
is no result if they would have to be drawn from no fragments: that is a panic. -/
def chooseFragments (seqNum : UInt32) (seqLen : Nat) (checksum : UInt32) : Option (List Nat) :=
  if seqNum.toNat ≤ seqLen then some [seqNum.toNat - 1]
  else if h : 0 < seqLen then
    let (degree, g) := (mixingGenerator seqNum checksum).degree seqLen h
    some (g.sample seqLen degree).1
  else none

/-- The set of the indexes of the fragments that a part mixes, unless their choice panics. -/
def Part.indexes? (part : Part) : Option IndexSet :=
  (chooseFragments part.seqNum part.seqLen part.checksum).map .ofList

/-! ### The header -/

/-- The fields of a header. -/
inductive Field
  | seqNum
  | seqLen
  | messageLen
  | checksum
  | data
  deriving Repr, DecidableEq

/-- The name of a field in messages. -/
def Field.name : Field → String
  | seqNum => "seqNum"
  | seqLen => "seqLen"
  | messageLen => "messageLen"
  | checksum => "checksum"
  | data => "data"

/-- Why bytes are not a part. -/
inductive HeaderError
  /-- The bytes do not begin with a data item. -/
  | malformed
  /-- The item is not an array of five. -/
  | shape
  /-- A field is of the wrong kind, or a number of more than 32 bits. -/
  | field (f : Field)
  /-- A field that may not be zero, or empty, is. -/
  | zero (f : Field)
  deriving Repr, DecidableEq

/-- The wording of an error. -/
def HeaderError.message : HeaderError → String
  | malformed => "malformed part header"
  | shape => "part header must be a 5-element array"
  | field f => "part header field `" ++ f.name ++ "` is missing or out of range"
  | zero f => "part header field `" ++ f.name ++ "` must be non-zero"

/-- The number of a field, which must fit in 32 bits. -/
def wordField (f : Field) : Cbor.Item → Except HeaderError Nat
  | .integer (.ofNat n) => if n < UInt32.size then .ok n else .error (.field f)
  | _ => .error (.field f)

/-- The bytes of a field. -/
def bytesField (f : Field) : Cbor.Item → Except HeaderError Bytes
  | .bytes b => .ok b
  | _ => .error (.field f)

/-- The part that five fields give, before it is known that none of them is zero. -/
def Part.ofFields : List Cbor.Item → Except HeaderError Part
  | [seqNum, seqLen, messageLen, checksum, data] => do
    let seqNum ← wordField .seqNum seqNum
    let seqLen ← wordField .seqLen seqLen
    let messageLen ← wordField .messageLen messageLen
    let checksum ← wordField .checksum checksum
    let data ← bytesField .data data
    .ok ⟨.ofNat seqNum, seqLen, messageLen, .ofNat checksum, data⟩
  | _ => .error .shape

/-- The first field that is zero or empty and may not be. -/
def Part.zeroField? (part : Part) : Option Field :=
  if part.seqNum = 0 then some .seqNum
  else if part.seqLen = 0 then some .seqLen
  else if part.messageLen = 0 then some .messageLen
  else if part.data = [] then some .data
  else none

/-- The part that a data item holds. -/
def Part.ofItem : Cbor.Item → Except HeaderError Part
  | .array fields => do
    let part ← ofFields fields
    match part.zeroField? with
    | some f => .error (.zero f)
    | none => .ok part
  | _ => .error .shape

/-- Reads a part off the front of the bytes. -/
def Part.ofCbor (bytes : Bytes) : Except HeaderError Part :=
  match Cbor.Item.read bytes with
  | none => .error .malformed
  | some (item, _) => ofItem item

/-- Writes a part. -/
def Part.toCbor (part : Part) : Bytes :=
  Cbor.head .array 5
    ++ Cbor.head .unsigned part.seqNum.toNat
    ++ Cbor.head .unsigned part.seqLen
    ++ Cbor.head .unsigned part.messageLen
    ++ Cbor.head .unsigned part.checksum.toNat
    ++ Cbor.head .bytes part.data.length ++ part.data

end UrReplay.Fountain
