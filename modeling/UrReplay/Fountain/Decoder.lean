import Std.Data.TreeMap
import UrReplay.Crc32
import UrReplay.Fountain.FragmentLength
import UrReplay.Fountain.Mix
import UrReplay.Fountain.Part
import UrReplay.Text.Hex
/-!
# UrReplay.Fountain.Decoder

Puts a message together from parts that arrive in any order.

* The first accepted part fixes the parameters of the transfer; a part with others is refused.
* A part of one fragment is recovered data. Every other part is a mix: what is recovered or held
  already is taken out of it as far as possible, and the rest is held.
* New data is taken out of the mixes that are held. A mix that comes down to one fragment goes to a
  queue and is processed like an arriving one, so one part may settle many.
* `receive` gives the next state or says why there is none, so a refused part changes nothing.
-/

namespace UrReplay.Fountain

/-! ### Parameters of a transfer -/

/-- The parameters that all parts of one transfer share. -/
structure Transfer where
  seqLen : Nat
  messageLen : Nat
  checksum : UInt32
  fragmentLen : Nat
  deriving Repr, DecidableEq

/-- The transfer that a part belongs to. -/
def Part.transfer (part : Part) : Transfer :=
  ⟨part.seqLen, part.messageLen, part.checksum, part.data.length⟩

/-- The parameters in which transfers differ. -/
inductive Parameter
  | seqLen
  | messageLen
  | checksum
  | fragmentLen
  deriving Repr, DecidableEq

/-- The name of a parameter in messages. -/
def Parameter.name : Parameter → String
  | seqLen => "sequence length"
  | messageLen => "message length"
  | checksum => "checksum"
  | fragmentLen => "fragment length"

/-- The first parameter in which two transfers differ. -/
def Transfer.difference? (a b : Transfer) : Option Parameter :=
  if a.seqLen ≠ b.seqLen then some .seqLen
  else if a.messageLen ≠ b.messageLen then some .messageLen
  else if a.checksum ≠ b.checksum then some .checksum
  else if a.fragmentLen ≠ b.fragmentLen then some .fragmentLen
  else none

theorem Transfer.difference?_eq_none_iff {a b : Transfer} : a.difference? b = none ↔ a = b := by
  cases a; cases b
  simp only [difference?]
  grind

/-- The greatest number of fragments of a transfer that is accepted. -/
def maxSeqLen : Nat := 65536

/-- The greatest number of mixes that are held. -/
def maxHeld : Nat := 256

/-- Why a part is refused. -/
inductive Refusal
  /-- It differs from the transfer in progress. -/
  | foreign (differing : Parameter)
  /-- It has no data. -/
  | noData
  /-- The number of fragments is not the one that the lengths of message and data need. -/
  | wrongSeqLen (claimed messageLen fragmentLen : Nat)
  /-- There are too many fragments. -/
  | tooManyFragments (seqLen : Nat)
  deriving Repr, DecidableEq

/-- The wording of a refusal. -/
def Refusal.message : Refusal → String
  | foreign differing =>
    "part does not belong to the transfer in progress (" ++ differing.name ++ ")"
  | noData => "part carries no data"
  | wrongSeqLen claimed messageLen fragmentLen =>
    "header claims " ++ toString claimed ++ " fragments, but a " ++ toString messageLen
      ++ "-byte message in " ++ toString fragmentLen ++ "-byte fragments needs "
      ++ toString (fragmentCount messageLen fragmentLen)
  | tooManyFragments seqLen =>
    "transfer of " ++ toString seqLen ++ " fragments exceeds the limit of " ++ toString maxSeqLen

/-- How receiving a part can end without a next state. -/
inductive Halt
  /-- The part is refused. -/
  | refused (refusal : Refusal)
  /-- The program panics: the part is one of no fragments, and which of them it mixes would have to be
  drawn. -/
  | panicked
  deriving Repr, DecidableEq

/-- The wording of a refusal, or of the panic. -/
def Halt.message : Halt → String
  | refused refusal => refusal.message
  | panicked => "attempt to subtract with overflow"

/-- The mix that a part carries, unless the choice of its fragments panics. -/
def Part.mix? (part : Part) : Option Mix := part.indexes?.map (⟨·, part.data⟩)

/-- What is wrong with a part whatever the transfer in progress. -/
def Part.flaw? (part : Part) : Option Refusal :=
  if part.data = [] then some .noData
  else if part.seqLen ≠ fragmentCount part.messageLen part.data.length then
    some (.wrongSeqLen part.seqLen part.messageLen part.data.length)
  else if maxSeqLen < part.seqLen then some (.tooManyFragments part.seqLen)
  else none

/-! ### The state of a decoder -/

/-- A message was put together, and has another check value than the transfer announced. -/
structure ChecksumMismatch where
  expected : UInt32
  actual : UInt32
  deriving Repr, DecidableEq

/-- The wording of a mismatch. -/
def ChecksumMismatch.message (m : ChecksumMismatch) : String :=
  "reassembled message checksum " ++ Hex.ofWord m.actual ++ " does not match "
    ++ Hex.ofWord m.expected

/-- Puts a message together. -/
structure Decoder where
  /-- The transfer that the first accepted part fixed. -/
  transfer : Option Transfer := none
  /-- The fragments known so far, by index. -/
  recovered : Std.TreeMap Nat Bytes := ∅
  /-- Mixes of two or more fragments, in the order of their arrival. -/
  held : List Mix := []
  /-- Mixes that are to be processed, the next one first. -/
  queue : List Mix := []
  /-- How the transfer ended: with a message, or with one that has the wrong check value. -/
  outcome : Option (Except ChecksumMismatch Bytes) := none
  /-- The number of accepted parts, up to the one that ended the transfer. -/
  received : Nat := 0

namespace Decoder

/-- A decoder that has not received anything. -/
def empty : Decoder := {}

instance : Inhabited Decoder := ⟨empty⟩

/-- Whether the transfer has ended. -/
def isComplete (d : Decoder) : Bool := d.outcome.isSome

/-- The message, once it is complete and has the right check value. -/
def message? (d : Decoder) : Option Bytes :=
  match d.outcome with
  | some (.ok message) => some message
  | _ => none

/-- Whether the transfer has ended with a message. -/
def isSuccessful (d : Decoder) : Bool := d.message?.isSome

/-- The mismatch that the transfer has ended with. -/
def failure? (d : Decoder) : Option ChecksumMismatch :=
  match d.outcome with
  | some (.error mismatch) => some mismatch
  | _ => none

/-- The number of fragments of the transfer, once it is known. -/
def seqLen? (d : Decoder) : Option Nat := d.transfer.map Transfer.seqLen

/-! ### Reduction -/

/-- Takes new data out of every mix that is held. What comes down to one fragment joins the
queue. -/
def reduceHeld (d : Decoder) (new : Mix) : Decoder :=
  let reduced := d.held.map (·.reduceBy new)
  { d with
    held := Mix.collect (reduced.filter (!·.isSingle))
    queue := d.queue ++ reduced.filter (·.isSingle) }

/-- Takes the recovered fragments out of a mix, from the least index on. -/
def withoutRecovered (d : Decoder) (m : Mix) : Mix :=
  m.indexes.toList.foldl
    (fun m i =>
      match d.recovered[i]? with
      | some data => m.reduceBy (.ofFragment i data)
      | none => m)
    m

/-- Takes the mixes that are held out of a mix, in order. -/
def withoutHeld (d : Decoder) (m : Mix) : Mix := d.held.foldl Mix.reduceBy m

/-- The recovered fragments in the order of their indexes, cut to the length of the message. -/
def assemble (d : Decoder) (t : Transfer) : Bytes :=
  (d.recovered.toList.flatMap (·.2)).take t.messageLen

/-- Ends the transfer: every fragment is recovered. -/
def finish (d : Decoder) (t : Transfer) : Decoder :=
  let message := d.assemble t
  let actual := Crc32.checksum message
  { d with
    outcome := some (if actual = t.checksum then .ok message else .error ⟨t.checksum, actual⟩)
    queue := [] }

/-- Takes in a fragment. -/
def addFragment (d : Decoder) (t : Transfer) (i : Nat) (data : Bytes) : Decoder :=
  if i ∈ d.recovered then d
  else
    let d := { d with recovered := d.recovered.insert i data }
    if d.recovered.size = t.seqLen then d.finish t else d.reduceHeld (.ofFragment i data)

/-- Holds a mix, if there is room. -/
def hold (d : Decoder) (m : Mix) : Decoder :=
  if d.held.length < maxHeld then { d with held := m.upsert d.held } else d

/-- Takes in a mix, unless one of the same fragments is held. -/
def addMix (d : Decoder) (m : Mix) : Decoder :=
  if d.held.any (·.indexes = m.indexes) then d
  else
    let m := d.withoutHeld (d.withoutRecovered m)
    if m.isSingle then { d with queue := d.queue ++ [m] } else (d.reduceHeld m).hold m

/-- Takes in the next of the queue. -/
def process (d : Decoder) (t : Transfer) (m : Mix) : Decoder :=
  match m.single? with
  | some i => d.addFragment t i m.data
  | none => d.addMix m

/-! ### The queue runs dry

Each mix weighs what it may still cause: a fragment one step, a mix that is held two (it may become
a fragment), and a queued mix three (it may come to be held). Each step lowers the total. -/

/-- The weight of a queued mix. -/
def queuedWeight (m : Mix) : Nat := if m.isSingle then 1 else 3

/-- The weight of a queue. -/
def queueWeight : List Mix → Nat
  | [] => 0
  | m :: queue => queuedWeight m + queueWeight queue

/-- The weight of everything that may still cause steps. -/
def weight (d : Decoder) : Nat := 2 * d.held.length + queueWeight d.queue

theorem queueWeight_append (ms queue : List Mix) :
    queueWeight (ms ++ queue) = queueWeight ms + queueWeight queue := by
  induction ms with
  | nil => simp [queueWeight]
  | cons m ms ih =>
    simp only [List.cons_append, queueWeight, ih]
    omega

theorem queueWeight_singles {ms : List Mix} (h : ∀ m ∈ ms, m.isSingle = true) :
    queueWeight ms = ms.length := by
  induction ms with
  | nil => rfl
  | cons m ms ih =>
    have hm := h m (by simp)
    have := ih fun m' hm' => h m' (by simp [hm'])
    simp only [queueWeight, queuedWeight, hm, if_true, List.length_cons, this]
    omega

theorem weight_reduceHeld_le (d : Decoder) (new : Mix) : (d.reduceHeld new).weight ≤ d.weight := by
  have hsingles : queueWeight ((d.held.map (·.reduceBy new)).filter (·.isSingle)) = _ :=
    queueWeight_singles (by simp)
  have hcollect := Mix.length_collect_le ((d.held.map (·.reduceBy new)).filter (!·.isSingle))
  have hparts := List.length_eq_countP_add_countP (·.isSingle)
    (l := d.held.map (·.reduceBy new))
  simp only [List.countP_eq_length_filter, List.length_map] at hparts
  simp only [weight, reduceHeld, queueWeight_append, hsingles]
  simp only [Bool.not_eq_true, Bool.decide_eq_false] at hparts
  omega

theorem weight_addFragment_le (d : Decoder) (t : Transfer) (i : Nat) (data : Bytes) :
    (d.addFragment t i data).weight ≤ d.weight := by
  unfold addFragment
  split
  · exact Nat.le_refl _
  · simp only
    split
    · simp [finish, weight, queueWeight]
    · exact weight_reduceHeld_le _ _

theorem weight_hold_le (d : Decoder) (m : Mix) : (d.hold m).weight ≤ d.weight + 2 := by
  unfold hold
  split
  · have := Mix.length_upsert_le m d.held
    simp only [weight]
    omega
  · omega

theorem weight_addMix_le (d : Decoder) (m : Mix) : (d.addMix m).weight ≤ d.weight + 2 := by
  unfold addMix
  split
  · omega
  · simp only
    split
    · rename_i h
      simp only [weight, queueWeight_append, queueWeight, queuedWeight, h, if_true]
      omega
    · have h₁ := weight_reduceHeld_le d (d.withoutHeld (d.withoutRecovered m))
      have h₂ := weight_hold_le (d.reduceHeld (d.withoutHeld (d.withoutRecovered m)))
        (d.withoutHeld (d.withoutRecovered m))
      omega

theorem weight_process_lt (d : Decoder) (t : Transfer) (m : Mix) :
    (d.process t m).weight < d.weight + queuedWeight m := by
  unfold process queuedWeight Mix.isSingle
  split
  · rename_i i h
    have := weight_addFragment_le d t i m.data
    simp only [h, Option.isSome_some, if_true]
    omega
  · rename_i h
    have := weight_addMix_le d m
    simp only [h, Option.isSome_none, Bool.false_eq_true, if_false]
    omega

theorem weight_of_queue_eq {d : Decoder} {m : Mix} {rest : List Mix} (h : d.queue = m :: rest) :
    d.weight = { d with queue := rest }.weight + queuedWeight m := by
  simp only [weight, h, queueWeight]
  omega

/-- Processes the queue until it is empty or the transfer ends. -/
def settle (d : Decoder) (t : Transfer) : Decoder :=
  if d.isComplete then d
  else
    match h : d.queue with
    | [] => d
    | m :: rest =>
      have : ({ d with queue := rest }.process t m).weight < d.weight := by
        rw [weight_of_queue_eq h]
        exact weight_process_lt _ _ _
      settle ({ d with queue := rest }.process t m) t
termination_by d.weight

/-! ### Receiving -/

/-- The transfer that an acceptable part belongs to: the one in progress, or else its own. -/
def transferFor (d : Decoder) (part : Part) : Except Refusal Transfer :=
  match part.flaw? with
  | some refusal => .error refusal
  | none =>
    match d.transfer with
    | none => .ok part.transfer
    | some t =>
      match t.difference? part.transfer with
      | some parameter => .error (.foreign parameter)
      | none => .ok t

/-- Takes in the mix of a part that belongs to a transfer. -/
def accept (d : Decoder) (t : Transfer) (m : Mix) : Decoder :=
  let queued := { d with transfer := some t, queue := d.queue ++ [m] }
  { queued.settle t with received := d.received + 1 }

/-- Receives a part. Once the transfer has ended, a part that belongs to it changes nothing, and which
fragments it mixes is not asked. -/
def receive (d : Decoder) (part : Part) : Except Halt Decoder :=
  match d.transferFor part with
  | .error refusal => .error (.refused refusal)
  | .ok t =>
    if d.isComplete then .ok d
    else
      match part.mix? with
      | none => .error .panicked
      | some m => .ok (d.accept t m)

end Decoder

end UrReplay.Fountain
