import UrReplay.Proofs.Fountain.Run
import UrReplay.Proofs.Resource.Receive
/-!
# UrReplay.Proofs.Resource.Run

Receiving many texts.

* `Received` lists the two things that an accepted text can do, and `received` says that it does one of
  them, to a decoder that is not complete.
* `receiveAll` offers texts one after another, and `accepted` are those among them that are not
  refused. `run_induction` proves facts about both: what holds at the start and what an accepted text
  keeps holds after any sequence of texts.
-/

namespace UrReplay.Resource.Decoder

open Fountain (Part)

variable {d d' : Decoder} {t type : Text}

/-! ### One text -/

/-- What an accepted text of a type makes of a decoder. -/
inductive Received (d : Decoder) (type : Text) : Decoder → Prop
  /-- The text is a whole payload. -/
  | whole {payload : Bytes} (hpayload : payload ≠ []) :
      Received d type ({ d with single := some payload }.withType type)
  /-- The text is a part that the fountain decoder inside accepts. -/
  | part {part : Part} {fountain : Fountain.Decoder} (hmessage : 1 ≤ part.messageLen)
      (hreceive : d.fountain.receive part = .ok fountain) :
      Received d type ({ d with fountain }.withType type)

theorem checkType_eq_ok_iff : d.checkType type = .ok () ↔ d.type = none ∨ d.type = some type := by
  unfold checkType
  split
  · rename_i h
    split <;> simp_all
  · rename_i h
    simp [h]

/-- A body that is taken in is a whole payload or holds a part. -/
theorem received_of_receiveBody {position : Option Position} {body : Bytes} (hbody : body ≠ [])
    (h : d.receiveBody position body = .ok d') : Received d type (d'.withType type) := by
  unfold receiveBody at h
  split at h
  · obtain rfl := Except.ok.inj h
    exact .whole hbody
  · obtain ⟨part, hpart, h⟩ := Except.bind_eq_ok_iff.1 h
    have hmessage := Part.messageLen_pos (Except.mapError_eq_ok_iff.1 hpart)
    split at h
    · exact absurd h (by simp)
    · obtain ⟨fountain, hfountain, h⟩ := Except.bind_eq_ok_iff.1 h
      obtain rfl := Except.ok.inj h
      exact .part hmessage (Except.mapError_eq_ok_iff.1 hfountain)

/-- A text is accepted before the end, if its type agrees, and does one of two things. -/
theorem received (h : d.receive t = .ok d') :
    d.isComplete = false ∧ ∃ type, (d.type = none ∨ d.type = some type) ∧ Received d type d' := by
  obtain ⟨hd, resource, body, d'', -, htype, hbody, hd'', rfl⟩ := receive_eq_ok_iff.1 h
  have hpayload := (Bytewords.decode_eq_ok_iff.1 hbody).1
  exact ⟨hd, resource.type, checkType_eq_ok_iff.1 htype, received_of_receiveBody hpayload hd''⟩

/-- The type is fixed from the first accepted text on. -/
theorem Received.type_eq (h : Received d type d') : d'.type = (d.type <|> some type) := by
  cases h with
  | whole _ => rfl
  | part _ _ => rfl

/-- A part that is taken in as the body of a text does not panic: its header says that there are
fragments. -/
theorem receivePart_ne_panicked (d : Decoder) (position : Position) (body : Bytes) :
    d.receivePart position body ≠ .error (.fountain .panicked) := by
  intro h
  rcases Except.bind_eq_error_iff.1 h with hheader | ⟨part, hpart, h⟩
  · obtain ⟨e, -, he⟩ := Except.mapError_eq_error_iff.1 hheader
    exact absurd he (by simp)
  · split at h
    · exact absurd h (by simp)
    · rcases Except.bind_eq_error_iff.1 h with hfountain | ⟨fountain, -, h⟩
      · obtain ⟨halt, hhalt, he⟩ := Except.mapError_eq_error_iff.1 hfountain
        obtain rfl := ReceiveError.fountain.inj he
        have hheader := (Part.ofCbor_eq_ok_iff.1 (Except.mapError_eq_ok_iff.1 hpart)).1
        exact Fountain.Decoder.receive_ne_panicked hheader.seqLen_pos d.fountain hhalt
      · exact absurd h (by simp)

/-- No text makes the decoder panic. -/
theorem receive_ne_panicked (d : Decoder) (t : Text) :
    d.receive t ≠ .error (.fountain .panicked) := by
  have hbody (position : Option Position) (body : Bytes) :
      d.receiveBody position body ≠ .error (.fountain .panicked) := by
    cases position with
    | none => exact fun h => absurd h (by simp [receiveBody])
    | some position => exact receivePart_ne_panicked d position body
  have htype (type : Text) : d.checkType type ≠ .error (.fountain .panicked) := by
    unfold checkType
    split
    · split <;> simp
    · simp
  unfold receive
  split
  · simp
  · simp [Except.bind_eq_error_iff, Except.mapError_eq_error_iff, hbody, htype]

/-! ### Many texts -/

/-- The decoder after it was offered texts one after another. A refused text changes nothing. -/
def receiveAll (d : Decoder) : List Text → Decoder
  | [] => d
  | t :: texts =>
    match d.receive t with
    | .ok d' => d'.receiveAll texts
    | .error _ => d.receiveAll texts

/-- The texts among those offered that are accepted, in order. -/
def accepted (d : Decoder) : List Text → List Text
  | [] => []
  | t :: texts =>
    match d.receive t with
    | .ok d' => t :: d'.accepted texts
    | .error _ => d.accepted texts

theorem receiveAll_of_isComplete (h : d.isComplete = true) (texts : List Text) :
    d.receiveAll texts = d := by
  induction texts with
  | nil => rfl
  | cons t texts ih =>
    rw [receiveAll, receive_of_isComplete h]
    exact ih

theorem accepted_of_isComplete (h : d.isComplete = true) (texts : List Text) :
    d.accepted texts = [] := by
  induction texts with
  | nil => rfl
  | cons t texts ih =>
    rw [accepted, receive_of_isComplete h]
    exact ih

/-- What holds of a decoder that has not received anything, and is kept by every accepted text,
holds after any sequence of texts. -/
theorem run_induction {motive : List Text → Decoder → Prop} (texts : List Text)
    (start : motive [] empty)
    (step : ∀ (before : List Text) (d : Decoder) (t : Text) (d' : Decoder), motive before d →
      d.receive t = .ok d' → motive (before ++ [t]) d') :
    motive (empty.accepted texts) (empty.receiveAll texts) := by
  -- `before` are the texts accepted so far, and `rest` are those still to be offered.
  have general (rest before : List Text) (d : Decoder) (hd : motive before d) :
      motive (before ++ d.accepted rest) (d.receiveAll rest) := by
    induction rest generalizing before d with
    | nil =>
      rw [accepted, receiveAll, List.append_nil]
      exact hd
    | cons t rest ih =>
      rw [accepted, receiveAll]
      cases hreceive : d.receive t with
      | error error => exact ih before d hd
      | ok d' =>
          have hstep := ih (before ++ [t]) d' (step before d t d' hd hreceive)
          rwa [List.append_assoc] at hstep
  exact general texts [] empty start

/-- A type that is fixed does not change any more. -/
theorem type_receiveAll (h : d.type = some type) (texts : List Text) :
    (d.receiveAll texts).type = some type := by
  induction texts generalizing d with
  | nil => exact h
  | cons t texts ih =>
    rw [receiveAll]
    cases hreceive : d.receive t with
    | error error => exact ih h
    | ok d' =>
        obtain ⟨-, type', -, hreceived⟩ := received hreceive
        refine ih ?_
        rw [hreceived.type_eq, h]
        rfl

end UrReplay.Resource.Decoder
