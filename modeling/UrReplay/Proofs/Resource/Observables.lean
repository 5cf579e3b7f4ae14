import UrReplay.Proofs.Fountain.Count
import UrReplay.Proofs.Fountain.Integrity
import UrReplay.Proofs.Resource.Atomicity
import UrReplay.Proofs.Text.Decimal
import UrReplay.Resource.Encoder
/-!
# UrReplay.Proofs.Resource.Observables

What a decoder of resources shows from outside fits together, whatever texts it was offered
(`observables_receiveAll`).

The state is in two places, the payload of a text that is whole in itself and the fountain decoder, and
both may be filled: a whole payload may arrive in the middle of a transfer. But it cannot arrive after
the end of one, and nothing arrives after it, so at most one of the two has ended (`Took.single`). The
fountain decoder counts parts and not texts; the two counts agree until a whole payload arrives
(`Took.received`).
-/

namespace UrReplay

namespace Fountain.Decoder

variable {d : Decoder}

theorem isComplete_of_isSuccessful (h : d.isSuccessful = true) : d.isComplete = true := by
  obtain ⟨message, hmessage⟩ := isSuccessful_iff.1 h
  rw [isComplete, message?_eq_some_iff.1 hmessage]
  rfl

theorem failure?_of_isSuccessful (h : d.isSuccessful = true) : d.failure? = none := by
  obtain ⟨message, hmessage⟩ := isSuccessful_iff.1 h
  rw [failure?, message?_eq_some_iff.1 hmessage]

theorem failure?_of_not_isComplete (h : d.isComplete = false) : d.failure? = none := by
  rw [isComplete, Option.isSome_eq_false_iff, Option.isNone_iff_eq_none] at h
  rw [failure?, h]

/-- Between calls, a transfer that is running has fragments missing. -/
theorem Settled.size_lt (h : Settled d) (hd : d.isComplete = false) (hreceived : d.received ≠ 0) :
    ∃ seqLen, d.seqLen? = some seqLen ∧ d.recovered.size < seqLen := by
  cases h with
  | fresh => exact absurd rfl hreceived
  | @running _ t h _ _ =>
      refine ⟨t.seqLen, ?_, card_known d ▸ h.missing⟩
      rw [seqLen?, h.transfer]
      rfl
  | finished h _ =>
      rw [h.isComplete] at hd
      exact absurd hd (by decide)

/-- A message is not empty, if no part announces an empty one. -/
theorem message_ne_nil {parts : List Part} (hparts : ∀ part ∈ parts, 1 ≤ part.messageLen)
    {message : Bytes} (h : (empty.receiveAll parts).message? = some message) : message ≠ [] := by
  have hcomplete := isComplete_of_isSuccessful (isSuccessful_iff.2 ⟨message, h⟩)
  obtain ⟨first, hfirst, hflaw, hfinished⟩ := exists_finished hparts hcomplete
  obtain ⟨hdata, hseq, -⟩ := Part.flaw?_eq_none_iff.1 hflaw
  have hlength := hfinished.length_assemble (List.length_pos_iff.2 hdata) hseq
  obtain rfl := (hfinished.eq_assemble h).1
  have hpos : 1 ≤ first.messageLen :=
    hparts first (mem_of_mem_accepted (List.mem_of_mem_head? hfirst))
  exact List.length_pos_iff.1 (hlength ▸ hpos)

end Fountain.Decoder

namespace Resource.Decoder

open Fountain (ChecksumMismatch Part)

variable {d d' : Decoder} {k : Nat}

/-! ### Texts that are shown -/

/-- The wording of the progress of a transfer. -/
def progress (recovered seqLen received : Nat) : String :=
  toString recovered ++ " of " ++ toString seqLen ++ " fragments recovered from "
    ++ toString received ++ " parts"

theorem head?_progress (recovered seqLen received : Nat) :
    (progress recovered seqLen received).toList.head? = (Decimal.encode recovered).head? := by
  have hdigits : (toString recovered).toList = Decimal.encode recovered := Nat.toList_repr
  simp only [progress, String.toList_append, List.append_assoc, hdigits]
  exact List.head?_append_of_ne_nil _ (Decimal.encode_ne_nil recovered)

theorem head?_message (mismatch : ChecksumMismatch) :
    mismatch.message.toList.head? = some 'r' := by
  unfold ChecksumMismatch.message
  generalize Hex.ofWord mismatch.actual = actual
  generalize Hex.ofWord mismatch.expected = expected
  simp only [String.toList_append, List.append_assoc]
  rw [List.head?_append_of_ne_nil] <;> decide

/-- Progress begins with a digit, and the message of a mismatch does not. -/
theorem progress_ne_message (recovered seqLen received : Nat) (mismatch : ChecksumMismatch) :
    progress recovered seqLen received ≠ mismatch.message := by
  intro h
  have hhead := head?_progress recovered seqLen received
  rw [h, head?_message] at hhead
  have hdigit := Decimal.isDigit_of_mem_encode (List.mem_of_mem_head? hhead.symm)
  exact absurd hdigit (by decide)

/-! ### After some texts -/

/-- A decoder that has accepted `k` texts. -/
structure Took (k : Nat) (d : Decoder) : Prop where
  fresh : k = 0 → d = empty
  type : k ≠ 0 → d.type.isSome = true
  /-- A whole payload is not empty, and arrives before the end of a transfer. -/
  single : ∀ payload, d.single = some payload → payload ≠ [] ∧ d.fountain.isComplete = false
  parts : ∃ parts : List Part, (∀ part ∈ parts, 1 ≤ part.messageLen) ∧
    d.fountain = Fountain.Decoder.empty.receiveAll parts
  /-- Until a whole payload arrives, every accepted text is a part. -/
  count : d.single = none → d.fountain.received = k

theorem isComplete_eq_false_iff :
    d.isComplete = false ↔ d.single = none ∧ d.fountain.isComplete = false := by
  rw [isComplete, Bool.or_eq_false_iff, Option.isSome_eq_false_iff, Option.isNone_iff_eq_none]

theorem isSuccessful_eq_false_iff :
    d.isSuccessful = false ↔ d.single = none ∧ d.fountain.isSuccessful = false := by
  rw [isSuccessful, Bool.or_eq_false_iff, Option.isSome_eq_false_iff, Option.isNone_iff_eq_none]

theorem took_empty : Took 0 empty where
  fresh _ := rfl
  type h := absurd rfl h
  single _ h := absurd h (by simp [empty])
  parts := ⟨[], by simp, rfl⟩
  count _ := rfl

/-- One more text is accepted. -/
theorem Took.receive (h : Took k d) {t : Text} (hreceive : d.receive t = .ok d') :
    Took (k + 1) d' := by
  obtain ⟨hd, type, -, hreceived⟩ := received hreceive
  obtain ⟨hsingle, hfountain⟩ := isComplete_eq_false_iff.1 hd
  have htype : d'.type.isSome = true := by
    rw [hreceived.type_eq]
    cases d.type <;> rfl
  cases hreceived with
  | whole hpayload =>
      refine ⟨fun hk => absurd hk k.succ_ne_zero, fun _ => htype, ?_, h.parts, ?_⟩
      · rintro _ ⟨⟩
        exact ⟨hpayload, hfountain⟩
      · intro hnone
        exact absurd hnone (by simp [withType])
  | @part part fountain hmessage hpart =>
      refine ⟨fun hk => absurd hk k.succ_ne_zero, fun _ => htype, ?_, ?_, ?_⟩
      · intro payload hpayload
        exact absurd (hsingle.symm.trans hpayload) (by simp)
      · obtain ⟨parts, hparts, hparts'⟩ := h.parts
        refine ⟨parts ++ [part], ?_, ?_⟩
        · exact List.forall_mem_append.2 ⟨hparts, List.forall_mem_singleton.2 hmessage⟩
        · rw [Fountain.Decoder.receiveAll_append, ← hparts', Fountain.Decoder.receiveAll, hpart]
          rfl
      · intro _
        rw [← h.count hsingle]
        exact Fountain.Decoder.received_receive hpart hfountain

theorem took_receiveAll (texts : List Text) :
    Took (empty.accepted texts).length (empty.receiveAll texts) := by
  refine run_induction (motive := fun accepted d => Took accepted.length d) texts took_empty ?_
  intro before d t d' h hreceive
  rw [List.length_append]
  exact h.receive hreceive

namespace Took

theorem settled (h : Took k d) : Fountain.Decoder.Settled d.fountain := by
  obtain ⟨parts, hparts, hfountain⟩ := h.parts
  rw [hfountain]
  exact Fountain.Decoder.settled_receiveAll hparts

theorem size_le (h : Took k d) : d.fountain.recovered.size ≤ d.fountain.received := by
  obtain ⟨parts, -, hfountain⟩ := h.parts
  rw [hfountain]
  exact Fountain.Decoder.size_recovered_le_received parts

theorem message_ne_nil (h : Took k d) {message : Bytes} (hmessage : d.message? = some message) :
    message ≠ [] := by
  rw [message?] at hmessage
  cases hsingle : d.single with
  | some payload =>
      rw [hsingle] at hmessage
      obtain rfl := Option.some.inj hmessage
      exact (h.single _ hsingle).1
  | none =>
      rw [hsingle] at hmessage
      obtain ⟨parts, hparts, hfountain⟩ := h.parts
      rw [hfountain] at hmessage
      exact Fountain.Decoder.message_ne_nil hparts hmessage

/-- Decoding that has failed shows the mismatch. -/
theorem status?_of_failed (h : Took k d) (hcomplete : d.isComplete = true)
    (hfailed : d.isSuccessful = false) :
    ∃ mismatch, d.fountain.failure? = some mismatch ∧ mismatch.actual ≠ mismatch.expected ∧
      d.status? = some mismatch.message := by
  obtain ⟨hsingle, hfailed⟩ := isSuccessful_eq_false_iff.1 hfailed
  rw [isComplete, hsingle] at hcomplete
  obtain ⟨t, hfinished⟩ := h.settled.exists_finished hcomplete
  obtain ⟨hmismatch, hne⟩ := hfinished.failure?_eq hfailed
  refine ⟨_, hmismatch, hne, ?_⟩
  rw [status?, hmismatch]

/-- Decoding that has succeeded shows nothing. -/
theorem status?_of_isSuccessful (h : Took k d) (hd : d.isSuccessful = true) : d.status? = none := by
  cases hsingle : d.single with
  | some payload =>
      have hrunning := (h.single payload hsingle).2
      rw [status?, Fountain.Decoder.failure?_of_not_isComplete hrunning]
      exact if_pos (by rw [isComplete, hsingle]; rfl)
  | none =>
      rw [isSuccessful, hsingle] at hd
      have hcomplete := Fountain.Decoder.isComplete_of_isSuccessful hd
      rw [status?, Fountain.Decoder.failure?_of_isSuccessful hd]
      exact if_pos (by rw [isComplete, hcomplete, Bool.or_true])

theorem status?_of_fresh (h : Took k d) (hk : k = 0) : d.status? = none := by
  rw [h.fresh hk]
  rfl

/-- Decoding that has not ended shows its progress. -/
theorem status?_of_running (h : Took k d) (hd : d.isComplete = false) (hk : k ≠ 0) :
    ∃ seqLen, d.fountain.seqLen? = some seqLen ∧ d.fountain.recovered.size < seqLen ∧
      d.fountain.recovered.size ≤ k ∧
      d.status? = some (progress d.fountain.recovered.size seqLen k) := by
  obtain ⟨hsingle, hfountain⟩ := isComplete_eq_false_iff.1 hd
  have hcount := h.count hsingle
  obtain ⟨seqLen, hseqLen, hlt⟩ := h.settled.size_lt hfountain (hcount ▸ hk)
  refine ⟨seqLen, hseqLen, hlt, hcount ▸ h.size_le, ?_⟩
  rw [status?, Fountain.Decoder.failure?_of_not_isComplete hfountain]
  dsimp only
  rw [hd, if_neg Bool.false_ne_true, hseqLen, hcount]
  rfl

/-- Nothing but a failure shows a mismatch: anything else shows nothing or begins with a digit. -/
theorem exists_mismatch_iff (h : Took k d) :
    (∃ mismatch : ChecksumMismatch, d.status? = some mismatch.message) ↔
      d.isComplete = true ∧ d.isSuccessful = false := by
  constructor
  · rintro ⟨mismatch, hmismatch⟩
    have hsome : d.status? ≠ none := by
      rw [hmismatch]
      exact Option.some_ne_none _
    refine ⟨Bool.of_not_eq_false fun hd => ?_, Bool.eq_false_iff.2 fun hd => ?_⟩
    · have hk : k ≠ 0 := fun hk => hsome (h.status?_of_fresh hk)
      obtain ⟨seqLen, -, -, -, hprogress⟩ := h.status?_of_running hd hk
      rw [hprogress] at hmismatch
      exact progress_ne_message _ _ _ mismatch (Option.some.inj hmismatch)
    · exact hsome (h.status?_of_isSuccessful hd)
  · rintro ⟨hd, hfailed⟩
    obtain ⟨mismatch, -, -, hmismatch⟩ := h.status?_of_failed hd hfailed
    exact ⟨mismatch, hmismatch⟩

end Took

/-! ### What is shown -/

theorem isSome_message? (d : Decoder) : d.message?.isSome = d.isSuccessful := by
  rw [message?, isSuccessful, Fountain.Decoder.isSuccessful]
  cases d.single <;> rfl

theorem isComplete_of_isSuccessful (h : d.isSuccessful = true) : d.isComplete = true := by
  rw [isSuccessful, Bool.or_eq_true] at h
  rw [isComplete, Bool.or_eq_true]
  exact h.imp_right Fountain.Decoder.isComplete_of_isSuccessful

/-- What a decoder shows that has accepted some texts. -/
structure Coherent (accepted : List Text) (d : Decoder) : Prop where
  message : d.message?.isSome = d.isSuccessful
  nonempty : ∀ message, d.message? = some message → message ≠ []
  successful : d.isSuccessful = true → d.isComplete = true
  type : d.type.isSome = true ↔ accepted ≠ []
  /-- A type that is fixed does not change any more. -/
  fixed : d.type.isSome = true → ∀ texts, (d.receiveAll texts).type = d.type
  /-- After the end, every text is refused and changes nothing. -/
  ended : d.isComplete = true → ∀ t : Text, (receiveInPlace t).run.run d = (.error .alreadyComplete, d)
  failed : d.isComplete = true → d.isSuccessful = false →
    ∃ mismatch, d.fountain.failure? = some mismatch ∧ mismatch.actual ≠ mismatch.expected ∧
      d.status? = some mismatch.message
  mismatch : (∃ m : ChecksumMismatch, d.status? = some m.message) ↔
    d.isComplete = true ∧ d.isSuccessful = false
  silent : d.isSuccessful = true ∨ accepted = [] → d.status? = none
  /-- Until the end, some fragments are recovered, not all of them and no more than texts were
  accepted. -/
  running : d.isComplete = false → accepted ≠ [] →
    ∃ seqLen, d.fountain.seqLen? = some seqLen ∧ d.fountain.recovered.size < seqLen ∧
      d.fountain.recovered.size ≤ accepted.length ∧
      d.status? = some (progress d.fountain.recovered.size seqLen accepted.length)

/-- Whatever texts a decoder was offered, what it shows fits together. -/
theorem observables_receiveAll (texts : List Text) :
    Coherent (empty.accepted texts) (empty.receiveAll texts) := by
  have h := took_receiveAll texts
  generalize empty.accepted texts = accepted at h
  generalize empty.receiveAll texts = d at h
  have hlength : accepted.length = 0 ↔ accepted = [] := List.length_eq_zero_iff
  refine ⟨isSome_message? d, fun _ => h.message_ne_nil, isComplete_of_isSuccessful, ⟨?_, ?_⟩, ?_, ?_,
    h.status?_of_failed, h.exists_mismatch_iff, ?_, ?_⟩
  · intro htype haccepted
    rw [h.fresh (hlength.2 haccepted)] at htype
    exact absurd htype (by decide)
  · exact fun haccepted => h.type (mt hlength.1 haccepted)
  · intro htype later
    obtain ⟨type, htype⟩ := Option.isSome_iff_exists.1 htype
    rw [type_receiveAll htype, htype]
  · intro hd t
    have hatomic := atomic_receiveInPlace t d
    rw [receive_of_isComplete hd] at hatomic
    exact hatomic
  · rintro (hd | haccepted)
    · exact h.status?_of_isSuccessful hd
    · exact h.status?_of_fresh (hlength.2 haccepted)
  · exact fun hd haccepted => h.status?_of_running hd (mt hlength.1 haccepted)

/-- A whole payload in the middle of a transfer. -/
example :
    let type : Text := ['b', 'y', 't', 'e', 's']
    let d := empty.receiveAll [renderPart type ⟨1, 2, 2, 0, [0x2a]⟩, renderSingle type [0x17]]
    d.fountain.received = 1 ∧ d.message? = some [0x17] ∧ d.status? = none := by
  decide +kernel

end Resource.Decoder

end UrReplay
