import UrReplay.Crc32
import UrReplay.Fountain.FragmentLength
import UrReplay.Fountain.Part
/-!
# UrReplay.Fountain.Encoder

The parts of a message, without end. The message is cut into fragments of equal length, the last
one filled up with zeros; part `n` depends on `n` alone, so an encoder is the cut message and the
number of the last part.
-/

namespace UrReplay.Fountain

/-- The shortest fragments that a message is cut into, unless it is one fragment itself. -/
def minFragmentLen : Nat := 10

/-- Why a message cannot be cut. -/
inductive CutError
  /-- There is nothing to send. -/
  | emptyMessage
  /-- No length of fragments is allowed. -/
  | noFragmentLength (messageLen maxLen : Nat)
  deriving Repr, DecidableEq

/-- The wording of an error. -/
def CutError.message : CutError → String
  | emptyMessage => "cannot encode an empty message"
  | noFragmentLength messageLen maxLen =>
    "no fragment length between " ++ toString minFragmentLen ++ " and " ++ toString maxLen
      ++ " fits a " ++ toString messageLen ++ "-byte message"

/-- Cuts `count` fragments of length `len` off a message, with zeros where it has run out. -/
def cut (len : Nat) : (count : Nat) → Bytes → List Bytes
  | 0, _ => []
  | count + 1, message =>
    (message.take len).rightpad len 0 :: cut len count (message.drop len)

@[simp] theorem length_cut (len count : Nat) (message : Bytes) :
    (cut len count message).length = count := by
  induction count generalizing message with
  | zero => rfl
  | succ count ih => simp [cut, ih]

/-- Sends a message part by part. -/
structure Encoder where
  fragments : Array Bytes
  fragmentLen : Nat
  messageLen : Nat
  checksum : UInt32
  /-- The number of the last part, zero before the first. -/
  seqNum : UInt32 := 0

namespace Encoder

/-- The encoder of a message that has not sent any part. -/
def ofMessage (message : Bytes) (maxFragmentLen : Nat) : Except CutError Encoder :=
  if message = [] then .error .emptyMessage
  else
    match fragmentLength? message.length minFragmentLen maxFragmentLen with
    | none => .error (.noFragmentLength message.length maxFragmentLen)
    | some len =>
      .ok
        { fragments := (cut len (fragmentCount message.length len) message).toArray
          fragmentLen := len
          messageLen := message.length
          checksum := Crc32.checksum message }

/-- The number of fragments. -/
def seqLen (e : Encoder) : Nat := e.fragments.size

/-- Whether the message is one fragment. -/
def isSinglePart (e : Encoder) : Bool := e.seqLen = 1

/-- The exclusive or of the fragments with these indexes. -/
def mix (e : Encoder) (indexes : List Nat) : Bytes :=
  (indexes.filterMap (e.fragments[·]?)).foldl Bytes.xorInto (List.replicate e.fragmentLen 0)

/-- The part with a number. An encoder has fragments, so their choice does not panic. -/
def part (e : Encoder) (seqNum : UInt32) : Part :=
  { seqNum
    seqLen := e.seqLen
    messageLen := e.messageLen
    checksum := e.checksum
    data := e.mix ((chooseFragments seqNum e.seqLen e.checksum).getD []) }

/-- The number of the next part. It stays at the greatest 32-bit number once it is there. -/
def nextSeqNum (e : Encoder) : UInt32 :=
  if e.seqNum = 0xFFFFFFFF then e.seqNum else e.seqNum + 1

/-- Sends the next part. -/
def next (e : Encoder) : Part × Encoder :=
  (e.part e.nextSeqNum, { e with seqNum := e.nextSeqNum })

end Encoder

end UrReplay.Fountain
