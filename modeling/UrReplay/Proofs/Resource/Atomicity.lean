import UrReplay.Proofs.Fountain.Atomicity
import UrReplay.Proofs.Resource.Run
import UrReplay.Resource.InPlace
/-!
# UrReplay.Proofs.Resource.Atomicity

A text is received in place as a whole or not at all (`atomic_receiveInPlace`). Parsing, the type, the
body and the header are judged on a decoder that has not changed yet, the fountain decoder refuses a
part before it changes (`Fountain.Decoder.atomic_receiveInPlace`), a part with a header does not make it
panic, and the type is fixed last of all.
-/

namespace UrReplay.Resource.Decoder

variable {d : Decoder}

/-- What the fountain decoder inside refuses, it leaves alone. -/
theorem atomic_onFountain {action : Fountain.Decoder.Action Unit}
    {result : Except Fountain.Halt Fountain.Decoder} (h : Atomic action d.fountain result) :
    Atomic (onFountain action) d
      (do let fountain ← result.mapError .fountain; .ok { d with fountain }) := by
  unfold Atomic at h ⊢
  show (((action.run.run d.fountain).run.1.mapError ReceiveError.fountain),
    { d with fountain := (action.run.run d.fountain).run.2 }) = _
  rw [h]
  cases result <;> rfl

theorem atomic_receivePartInPlace (hd : d.fountain.isComplete = false) (position : Position)
    (body : Bytes) : Atomic (receivePartInPlace position body) d (d.receivePart position body) := by
  refine Atomic.ofExcept_bind fun part hpart => ?_
  have hheader := (Fountain.Part.ofCbor_eq_ok_iff.1 (Except.mapError_eq_ok_iff.1 hpart)).1
  split
  · exact Atomic.of_throw _ d
  · exact atomic_onFountain (Fountain.Decoder.atomic_receiveInPlace
      (fun hcomplete => absurd hcomplete (Bool.eq_false_iff.1 hd))
      (Fountain.Decoder.receive_ne_panicked hheader.seqLen_pos d.fountain))

theorem atomic_receiveBodyInPlace (hd : d.fountain.isComplete = false) (position : Option Position)
    (body : Bytes) : Atomic (receiveBodyInPlace position body) d (d.receiveBody position body) := by
  cases position with
  | none => exact Atomic.of_modify _ d
  | some position => exact atomic_receivePartInPlace hd position body

/-- In place, a text does what it does to a decoder that is given and returned. -/
theorem atomic_receiveInPlace (t : Text) (d : Decoder) :
    Atomic (receiveInPlace t) d (d.receive t) := by
  unfold receiveInPlace receive
  refine Atomic.get_bind ?_
  split
  · exact Atomic.of_throw _ d
  · rename_i hd
    have hfountain : d.fountain.isComplete = false :=
      (Bool.or_eq_false_iff.1 (Bool.eq_false_iff.2 hd)).2
    refine Atomic.ofExcept_bind fun resource _ => Atomic.get_bind ?_
    refine Atomic.ofExcept_bind fun _ _ => Atomic.ofExcept_bind fun body _ => ?_
    exact (atomic_receiveBodyInPlace hfountain resource.position body).bind_modify _

/-- Given texts one after another, a decoder in place goes through the same states. -/
theorem foldl_receiveInPlace (d : Decoder) (texts : List Text) :
    texts.foldl (fun d t => ((receiveInPlace t).run.run d).2) d = d.receiveAll texts := by
  induction texts generalizing d with
  | nil => rfl
  | cons t texts ih =>
    rw [List.foldl_cons, ih, receiveAll, atomic_receiveInPlace t d]
    cases d.receive t <;> rfl

end UrReplay.Resource.Decoder
