import UrReplay.Proofs.Resource.Atomicity
import UrReplay.Proofs.Session.Log
import UrReplay.Resource.Encoder
import UrReplay.Session.Resource
/-!
# UrReplay.Proofs.Session.Influence

Which fragments a session with the decoder of resources depends on: those that are accepted, and no
others (`unaccepted_without_influence`). The decoder is changed in place, and a session relies on it to
be as it was after a refusal.
-/

namespace UrReplay

namespace Resource.Decoder

variable {d : Decoder}

theorem checkType_ne_alreadyComplete (d : Decoder) (type : Text) :
    d.checkType type ≠ .error .alreadyComplete := by
  unfold checkType
  split
  · split <;> simp
  · simp

theorem receiveBody_ne_alreadyComplete (d : Decoder) (position : Option Position) (body : Bytes) :
    d.receiveBody position body ≠ .error .alreadyComplete := by
  intro h
  cases position with
  | none => exact absurd h (by simp [receiveBody])
  | some position =>
      simp only [receiveBody, receivePart, Except.bind_eq_error_iff,
        Except.mapError_eq_error_iff] at h
      rcases h with ⟨_, _, h⟩ | ⟨part, _, h⟩
      · exact absurd h (by simp)
      · split at h
        · exact absurd h (by simp)
        · simp [Except.bind_eq_error_iff, Except.mapError_eq_error_iff] at h

/-- Until the end, no text is refused for coming after it. -/
theorem receive_ne_alreadyComplete (hd : d.isComplete = false) (t : Text) :
    d.receive t ≠ .error .alreadyComplete := by
  intro h
  rw [receive, hd, if_neg Bool.false_ne_true] at h
  simp only [Except.bind_eq_error_iff, Except.mapError_eq_error_iff] at h
  rcases h with ⟨_, _, h⟩ | ⟨resource, _, h | ⟨_, _, ⟨_, _, h⟩ | ⟨body, _, h | ⟨_, _, h⟩⟩⟩⟩
  · exact absurd h (by simp)
  · exact checkType_ne_alreadyComplete d _ h
  · exact absurd h (by simp)
  · exact receiveBody_ne_alreadyComplete d _ _ h
  · exact absurd h (by simp)

end Resource.Decoder

namespace Session

open FragmentDecoder (submit isComplete)
open Resource (Decoder ReceiveError)

theorem steady_decoder : Steady Decoder := fun d fragment _ _ h =>
  ((Decoder.atomic_receiveInPlace fragment.text d).eq_of_error h).1

/-- Fragments that are not accepted have no influence. A refused text leaves the decoder as it was,
whatever its state. So the accepted fragments alone make a session what it is; a fragment that is
rejected where it is put in, and any fragments after the end, change only how many there are; and the
decoder is never asked once it is complete. -/
theorem unaccepted_without_influence (fragments : List Fragment) :
    let fresh : Decoder := default
    (∀ (d : Decoder) (t : Text) (e : ReceiveError) (d' : Decoder),
        (Decoder.receiveInPlace t).run.run d = (.error e, d') → d' = d) ∧
      ((accepted fresh fragments).Sublist fragments ∧
        (run Decoder fragments).consumed = (accepted fresh fragments).length ∧
        run Decoder (accepted fresh fragments) =
          { run Decoder fragments with available := (accepted fresh fragments).length }) ∧
      (∀ (before after : List Fragment) (rejected : Fragment) (e : ReceiveError) (d' : Decoder),
        fragments = before ++ after → submit (feed fresh before).2 rejected = (.error e, d') →
        run Decoder (before ++ rejected :: after) =
          { run Decoder fragments with available := fragments.length + 1 }) ∧
      ((run Decoder fragments).completed = true → ∀ surplus : List Fragment,
        run Decoder (fragments ++ surplus) =
          { run Decoder fragments with available := fragments.length + surplus.length }) ∧
      ∀ entry ∈ log fresh fragments, entry.2 ≠ .error .alreadyComplete := by
  intro fresh
  have hfresh : isComplete fresh = false := rfl
  refine ⟨?_, ⟨accepted_sublist fresh fragments, ?_, ?_⟩, ?_, ?_, ?_⟩
  · intro d t e d' h
    exact ((Decoder.atomic_receiveInPlace t d).eq_of_error h).1
  · exact (fst_feedFrom 0 fresh fragments).trans (Nat.zero_add _)
  · exact runWith_congr (feedFrom_accepted steady_decoder 0 fresh fragments)
  · intro before after rejected e d' hfragments hrejected
    have hfeed := feed_insert steady_decoder hfresh hrejected after
    rw [← hfragments] at hfeed
    have hlength : (before ++ rejected :: after).length = fragments.length + 1 := by
      rw [hfragments, List.length_append, List.length_append, List.length_cons, Nat.add_assoc]
    rw [← hlength]
    exact runWith_congr hfeed
  · intro hcompleted surplus
    rw [← List.length_append]
    exact runWith_congr (feed_append_of_isComplete steady_decoder hfresh hcompleted surplus)
  · intro entry hentry halready
    obtain ⟨d, hd, hanswer⟩ := exists_of_mem_log steady_decoder hfresh hentry
    have hrefused : submit d entry.1 = (.error .alreadyComplete, (submit d entry.1).2) :=
      Prod.ext (hanswer.trans halready) rfl
    have hreceive := ((Decoder.atomic_receiveInPlace entry.1.text d).eq_of_error hrefused).2
    exact Decoder.receive_ne_alreadyComplete hd entry.1.text hreceive

/-- A fragment that is none, before and after a whole payload. -/
theorem unaccepted_without_influence_junk :
    let junk : Fragment := ⟨['u', 'r', ':', '?']⟩
    let whole : Fragment := ⟨Resource.renderSingle ['b', 'y', 't', 'e', 's'] [0x2a]⟩
    (run Decoder [whole]).completed = true ∧
      run Decoder [junk, whole] = { run Decoder [whole] with available := 2 } ∧
      run Decoder [whole, junk] = { run Decoder [whole] with available := 2 } := by
  intro junk whole
  have hcompleted : (run Decoder [whole]).completed = true := by decide +kernel
  have hrejected : (submit (feed (default : Decoder) []).2 junk).1 =
      .error (.parse (.invalidType ['?'])) := by decide +kernel
  obtain ⟨-, -, hinsert, hsurplus, -⟩ := unaccepted_without_influence [whole]
  exact ⟨hcompleted, hinsert [] [whole] junk _ _ rfl (Prod.ext hrejected rfl),
    hsurplus hcompleted [junk]⟩

end Session

end UrReplay
