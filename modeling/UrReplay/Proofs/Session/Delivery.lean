import UrReplay.Proofs.Resource.Atomicity
import UrReplay.Proofs.Resource.Observables
import UrReplay.Proofs.Resource.RoundTrip
import UrReplay.Proofs.Session.Log
import UrReplay.Session.Resource
/-!
# UrReplay.Proofs.Session.Delivery

What a session with the decoder of resources delivers. A session stops at the end of a transfer, and
the decoder is in the same state as if it had been offered every fragment (`snd_feedFrom`), because it
refuses what comes after the end. So the observations of a session are those of that decoder
(`run_of_delivers`).
-/

namespace UrReplay.Session

open Resource (Decoder Encoder)

theorem snd_feedFrom (n : Nat) (d : Decoder) (fragments : List Fragment) :
    (feedFrom n d fragments).2 = d.receiveAll (fragments.map Fragment.text) := by
  induction d, fragments using feed_induction generalizing n with
  | nil d => rfl
  | rejected d fragment rest e d' h ih =>
    obtain ⟨rfl, hreceive⟩ := (Decoder.atomic_receiveInPlace fragment.text d).eq_of_error h
    rw [feedFrom_cons_of_rejected h, ih, List.map_cons, Decoder.receiveAll, hreceive]
  | last d fragment rest d' h hd' =>
    have hreceive := (Decoder.atomic_receiveInPlace fragment.text d).eq_of_ok h
    rw [feedFrom_cons_of_last h hd', List.map_cons, Decoder.receiveAll, hreceive]
    exact (Decoder.receiveAll_of_isComplete hd' _).symm
  | accepted d fragment rest d' h hd' ih =>
    have hreceive := (Decoder.atomic_receiveInPlace fragment.text d).eq_of_ok h
    rw [feedFrom_cons_of_accepted h hd', ih, List.map_cons, Decoder.receiveAll, hreceive]

theorem completed_run (fragments : List Fragment) :
    (run Decoder fragments).completed =
      (Decoder.empty.receiveAll (fragments.map Fragment.text)).isComplete :=
  congrArg Decoder.isComplete (snd_feedFrom 0 Decoder.empty fragments)

theorem finalPayload?_decoder (d : Decoder) :
    finalPayload? d = if d.isComplete && d.isSuccessful then d.message? else none := rfl

theorem payload_run (fragments : List Fragment) :
    (run Decoder fragments).payload =
      finalPayload? (Decoder.empty.receiveAll (fragments.map Fragment.text)) :=
  congrArg finalPayload? (snd_feedFrom 0 Decoder.empty fragments)

/-- No session observes an empty payload. -/
theorem payload_ne_nil {payload : Bytes} {fragments : List Fragment}
    (h : (run Decoder fragments).payload = some payload) : payload ≠ [] := by
  rw [payload_run, finalPayload?_decoder] at h
  split at h
  · exact (Decoder.took_receiveAll (fragments.map Fragment.text)).message_ne_nil h
  · exact absurd h nofun

/-- A session with texts that deliver a payload observes that payload, if it comes to an end, and
nothing else. -/
theorem run_of_delivers {e : Encoder} {type : Text} {payload : Bytes} {fragments : List Fragment}
    (h : (Decoder.empty.receiveAll (fragments.map Fragment.text)).Delivers e type payload) :
    (run Decoder fragments).payload =
        (if (run Decoder fragments).completed then some payload else none) ∧
      (run Decoder fragments).succeeded = (run Decoder fragments).completed := by
  have hpayload : (run Decoder fragments).payload =
      if (run Decoder fragments).completed then some payload else none := by
    rw [payload_run, completed_run, finalPayload?_decoder]
    cases hd : (Decoder.empty.receiveAll (fragments.map Fragment.text)).isComplete with
    | false => rfl
    | true =>
        rw [h.successful hd, h.message hd]
        rfl
  refine ⟨hpayload, ?_⟩
  have hsucceeded : (run Decoder fragments).succeeded = (run Decoder fragments).payload.isSome := rfl
  rw [hsucceeded, hpayload]
  cases (run Decoder fragments).completed <;> rfl

end UrReplay.Session
