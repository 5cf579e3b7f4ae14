import UrReplay.Proofs.Fountain.Transmission
import UrReplay.Proofs.Resource.Emission
import UrReplay.Proofs.Resource.Transport
/-!
# UrReplay.Proofs.Resource.RoundTrip

What an encoder sends, a decoder puts together again (`round_trip`), whatever is lost, repeated or
reordered on the way, and whatever happens to the letter case.

A payload of one fragment is delivered by any text of it (`delivers_single`). Any other is sent part
by part: the texts carry the parts (`Transport`), and the parts carry the payload
(`Fountain.Transmission`).
-/

namespace UrReplay.Resource

open Fountain (Part)

/-- A text is one that an encoder sends, in any letter case. -/
def Encoder.Emits (e : Encoder) (t : Text) : Prop := ∃ k, t.lower = (e.text k).lower

namespace Decoder

variable {type : Text} {payload : Bytes} {e : Encoder} {texts : List Text}

/-- A decoder refuses no text of an encoder until it is complete, and then it has the payload. -/
structure Delivers (e : Encoder) (type : Text) (payload : Bytes) (d : Decoder) : Prop where
  accepts : d.isComplete = false → ∀ t, e.Emits t → ∃ d', d.receive t = .ok d'
  successful : d.isComplete = true → d.isSuccessful = true
  message : d.isComplete = true → d.message? = some payload
  type : d.isComplete = true → d.type = some type

/-! ### Payloads of one fragment -/

theorem receive_single (htype : isValidType e.type = true) (hpayload : e.payload ≠ [])
    (hsingle : e.fountain.isSinglePart = true) {t : Text} (ht : e.Emits t) :
    empty.receive t = .ok { type := some e.type, single := some e.payload } := by
  obtain ⟨k, ht⟩ := ht
  rw [Encoder.text_of_isSinglePart hsingle,
    lower_eq_self_of_isPlain (isPlain_of_mem_renderSingle htype e.payload)] at ht
  exact receive_renderSingle rfl htype rfl hpayload ht

/-- Any text of a payload of one fragment ends decoding. -/
theorem receiveAll_single (htype : isValidType e.type = true) (hpayload : e.payload ≠ [])
    (hsingle : e.fountain.isSinglePart = true) (htexts : ∀ t ∈ texts, e.Emits t)
    (hne : texts ≠ []) :
    empty.receiveAll texts = { type := some e.type, single := some e.payload } := by
  cases texts with
  | nil => exact absurd rfl hne
  | cons t texts =>
    rw [receiveAll, receive_single htype hpayload hsingle (htexts t List.mem_cons_self)]
    exact receiveAll_of_isComplete rfl texts

theorem delivers_single (htype : isValidType e.type = true) (hpayload : e.payload ≠ [])
    (hsingle : e.fountain.isSinglePart = true) (htexts : ∀ t ∈ texts, e.Emits t) :
    Delivers e e.type e.payload (empty.receiveAll texts) := by
  by_cases hne : texts = []
  · have hfresh : (empty.receiveAll texts).isComplete ≠ true := by
      rw [hne]
      decide
    refine ⟨?_, fun h => absurd h hfresh, fun h => absurd h hfresh,
      fun h => absurd h hfresh⟩
    intro _ t ht
    rw [hne]
    exact ⟨_, receive_single htype hpayload hsingle ht⟩
  · rw [receiveAll_single htype hpayload hsingle htexts hne]
    exact ⟨fun h => Bool.noConfusion h, fun _ => rfl, fun _ => rfl, fun _ => rfl⟩

/-! ### Payloads of many fragments -/

/-- What is known of an encoder that sends part by part. -/
structure SendsParts (e : Encoder) : Prop where
  type : isValidType e.type = true
  sends : e.fountain.Sends e.payload
  start : e.fountain.seqNum = 0
  multi : e.fountain.isSinglePart = false
  few : e.seqLen ≤ Fountain.maxSeqLen
  short : e.payload.length < UInt32.size

namespace SendsParts

theorem carried (h : SendsParts e) {seqNum : UInt32} (hnum : seqNum ≠ 0) :
    (e.fountain.part seqNum).Carried :=
  h.sends.carried_part h.short hnum

/-- Each text carries a part. -/
theorem exists_part (h : SendsParts e) {t : Text} (ht : e.Emits t) :
    ∃ part : Part, (∃ seqNum, part = e.fountain.part seqNum) ∧ part.Carried ∧
      t.lower = renderPart e.type part := by
  obtain ⟨k, ht⟩ := ht
  obtain ⟨seqNum, hcarried, htext⟩ :=
    Encoder.exists_carried_text h.sends h.short h.multi h.start k
  rw [htext, lower_eq_self_of_isPlain (isPlain_of_mem_renderPart h.type _)] at ht
  exact ⟨_, ⟨seqNum, rfl⟩, hcarried, ht⟩

/-- The first texts carry the parts of one fragment, in order. -/
theorem text_eq (h : SendsParts e) {k : Nat} (hk : k < e.seqLen) :
    e.text k = renderPart e.type (e.fountain.part (.ofNat (k + 1))) := by
  obtain ⟨seqNum, hnum, htext⟩ := Encoder.exists_text_eq h.multi h.start k
  have hsmall : k + 1 ≤ Fountain.maxSeqLen := (Nat.succ_le_of_lt hk).trans h.few
  have hseqNum : UInt32.ofNat (k + 1) = seqNum := by
    have hval : seqNum.toNat = k + 1 := by
      rw [hnum, Nat.min_eq_left (hsmall.trans (by decide))]
    rw [← hval, UInt32.ofNat_toNat]
  rw [htext, hseqNum]

/-- Some choice of parts goes with the texts. -/
theorem exists_partOf (h : SendsParts e) (htexts : ∀ t ∈ texts, e.Emits t) :
    ∃ partOf : Text → Part, ∀ t ∈ texts, (∃ seqNum, partOf t = e.fountain.part seqNum) ∧
      (partOf t).Carried ∧ t.lower = renderPart e.type (partOf t) := by
  have hpart (t : Text) : ∃ part : Part, t ∈ texts → (∃ seqNum, part = e.fountain.part seqNum) ∧
      part.Carried ∧ t.lower = renderPart e.type part := by
    by_cases ht : t ∈ texts
    · obtain ⟨part, hpart⟩ := h.exists_part (htexts t ht)
      exact ⟨part, fun _ => hpart⟩
    · exact ⟨e.fountain.part 0, fun hmem => absurd hmem ht⟩
  choose partOf hpartOf using hpart
  exact ⟨partOf, hpartOf⟩

/-- The decoder is in step with a fountain decoder that is offered parts of the encoder. -/
theorem receiveAll (h : SendsParts e) (htexts : ∀ t ∈ texts, e.Emits t) :
    ∃ partOf : Text → Part, e.fountain.Sent (texts.map partOf) ∧
      (∀ t ∈ texts, (partOf t).Carried ∧ t.lower = renderPart e.type (partOf t)) ∧
      Carrying e.type (empty.receiveAll texts) ∧
      (empty.receiveAll texts).fountain = Fountain.Decoder.empty.receiveAll (texts.map partOf) := by
  obtain ⟨partOf, hpartOf⟩ := h.exists_partOf htexts
  have hcarries : ∀ t ∈ texts, (partOf t).Carried ∧ t.lower = renderPart e.type (partOf t) :=
    fun t ht => (hpartOf t ht).2
  refine ⟨partOf, ?_, hcarries,
    (carrying_empty e.type).receiveAll h.type
      (List.forall₂_map_right_iff.2 (List.forall₂_same.2 hcarries))⟩
  intro part hpart
  obtain ⟨t, ht, rfl⟩ := List.mem_map.1 hpart
  exact (hpartOf t ht).1

theorem delivers (h : SendsParts e) (htexts : ∀ t ∈ texts, e.Emits t) :
    Delivers e e.type e.payload (empty.receiveAll texts) := by
  obtain ⟨partOf, hsent, -, hcarrying, hfountain⟩ := h.receiveAll htexts
  have hmessage (hd : (empty.receiveAll texts).isComplete = true) :
      (empty.receiveAll texts).message? = some e.payload := by
    rw [hcarrying.isComplete, hfountain] at hd
    rw [hcarrying.message?, hfountain]
    exact h.sends.message?_eq hsent hd
  refine ⟨?_, ?_, hmessage, hcarrying.type_of_isComplete⟩
  · intro hd t ht
    obtain ⟨_, ⟨seqNum, rfl⟩, hcarried, hlower⟩ := h.exists_part ht
    have htransfer : (empty.receiveAll texts).fountain.transfer = none ∨
        (empty.receiveAll texts).fountain.transfer = some e.fountain.transfer := by
      rw [hfountain]
      exact h.sends.transfer_receiveAll hsent
    obtain ⟨fountain, hreceive, -⟩ := h.sends.receive_part h.few htransfer seqNum
    refine ⟨{ (empty.receiveAll texts) with fountain }.withType e.type, ?_⟩
    rw [hcarrying.receive hd h.type hcarried hlower, hreceive]
    rfl
  · intro hd
    have hsome := hmessage hd
    rw [hcarrying.message?] at hsome
    rw [hcarrying.isSuccessful, Fountain.Decoder.isSuccessful, hsome]
    rfl

/-- When each of the first texts has arrived, the decoder is complete. -/
theorem isComplete (h : SendsParts e) (htexts : ∀ t ∈ texts, e.Emits t)
    (hall : ∀ k < e.seqLen, ∃ t ∈ texts, t.lower = (e.text k).lower) :
    (empty.receiveAll texts).isComplete = true := by
  obtain ⟨partOf, hsent, hcarries, hcarrying, hfountain⟩ := h.receiveAll htexts
  rw [hcarrying.isComplete, hfountain]
  refine h.sends.isComplete h.few hsent ?_
  intro k hk
  obtain ⟨t, ht, hlower⟩ := hall k hk
  obtain ⟨hcarried, hpartOf⟩ := hcarries t ht
  have hnum : UInt32.ofNat (k + 1) ≠ 0 := fun hzero => by
    have hval := Fountain.toNat_succ_of_lt hk h.few
    rw [hzero] at hval
    exact absurd hval.symm (Nat.succ_ne_zero k)
  rw [h.text_eq hk, lower_eq_self_of_isPlain (isPlain_of_mem_renderPart h.type _),
    hpartOf] at hlower
  -- A text gives its part, so the chosen part is the wanted one.
  have heq := renderPart_injective h.type hcarried (h.carried hnum) hlower
  exact List.mem_map.2 ⟨t, ht, heq⟩

end SendsParts

/-! ### All payloads -/

/-- An encoder of a payload of many fragments sends part by part. -/
theorem sendsParts_of_ofPayload {maxFragmentLen : Nat}
    (he : Encoder.ofPayload type payload maxFragmentLen = .ok e)
    (hpayload : payload.length < 4294967296) (hmulti : e.fountain.isSinglePart = false)
    (hfew : e.seqLen ≤ 65536) : SendsParts e := by
  obtain ⟨htype, rfl, rfl, hfountain⟩ := Encoder.ofPayload_eq_ok he
  exact ⟨htype, Fountain.Encoder.sends_ofMessage hfountain,
    Fountain.Encoder.seqNum_ofMessage hfountain, hmulti, hfew, hpayload⟩

theorem delivers_of_ofPayload {maxFragmentLen : Nat}
    (he : Encoder.ofPayload type payload maxFragmentLen = .ok e)
    (hpayload : payload.length < 4294967296) (hfew : e.seqLen ≤ 65536)
    (htexts : ∀ t ∈ texts, e.Emits t) :
    Delivers e type payload (empty.receiveAll texts) ∧
      ((∀ k < e.seqLen, ∃ t ∈ texts, t.lower = (e.text k).lower) →
        (empty.receiveAll texts).isComplete = true) := by
  have hparts := sendsParts_of_ofPayload he hpayload
  obtain ⟨htype, rfl, rfl, hfountain⟩ := Encoder.ofPayload_eq_ok he
  have hsends := Fountain.Encoder.sends_ofMessage hfountain
  cases hsingle : e.fountain.isSinglePart with
  | true =>
      refine ⟨delivers_single htype hsends.nonempty hsingle htexts, ?_⟩
      intro hall
      obtain ⟨t, ht, -⟩ := hall 0 hsends.seqLen_pos
      rw [receiveAll_single htype hsends.nonempty hsingle htexts (List.ne_nil_of_mem ht)]
      rfl
  | false => exact ⟨(hparts hsingle hfew).delivers htexts, (hparts hsingle hfew).isComplete htexts⟩

/-- The round trip. A decoder that is offered texts of an encoder, in any order, with any losses and
repetitions and in any letter case, refuses none of them until it is complete and all of them after
that. Once it is complete, it is successful and has the payload and its type. It is complete when
each of the first `seqLen` texts has arrived. -/
theorem round_trip {maxFragmentLen : Nat}
    (he : Encoder.ofPayload type payload maxFragmentLen = .ok e)
    (hpayload : payload.length < 4294967296) (hfew : e.seqLen ≤ 65536)
    (htexts : ∀ t ∈ texts, ∃ k, t.lower = (e.text k).lower) :
    let d := empty.receiveAll texts
    (∀ t, (∃ k, t.lower = (e.text k).lower) →
        (d.isComplete = false → ∃ d', d.receive t = .ok d') ∧
          (d.isComplete = true → d.receive t = .error .alreadyComplete)) ∧
      (d.isComplete = true →
        d.isSuccessful = true ∧ d.message? = some payload ∧ d.type = some type) ∧
      ((∀ k < e.seqLen, ∃ t ∈ texts, t.lower = (e.text k).lower) → d.isComplete = true) := by
  intro d
  obtain ⟨hdelivers, hcomplete⟩ := delivers_of_ofPayload he hpayload hfew htexts
  refine ⟨fun t ht => ⟨fun hd => hdelivers.accepts hd t ht, ?_⟩, ?_, hcomplete⟩
  · intro hd
    exact receive_of_isComplete hd t
  · intro hd
    exact ⟨hdelivers.successful hd, hdelivers.message hd, hdelivers.type hd⟩

/-- Twenty bytes in two fragments, the second one first. -/
theorem round_trip_two_fragments :
    ∃ e, Encoder.ofPayload ['b', 'y', 't', 'e', 's'] (List.replicate 20 7) 10 = .ok e ∧
      (List.replicate 20 (7 : UInt8)).length < 4294967296 ∧ e.seqLen ≤ 65536 ∧
      (∀ t ∈ [e.text 1, e.text 0], ∃ k, t.lower = (e.text k).lower) ∧
      (empty.receiveAll [e.text 1, e.text 0]).message? = some (List.replicate 20 7) := by
  have hsome : ((Encoder.ofPayload ['b', 'y', 't', 'e', 's'] (List.replicate 20 7) 10).toOption.map
      Encoder.seqLen) = some 2 := by decide +kernel
  cases he : Encoder.ofPayload ['b', 'y', 't', 'e', 's'] (List.replicate 20 7) 10 with
  | error error =>
      rw [he] at hsome
      exact absurd hsome (by simp [Except.toOption])
  | ok e =>
      rw [he] at hsome
      have hseqLen : e.seqLen = 2 := Option.some.inj hsome
      have hpayload : (List.replicate 20 (7 : UInt8)).length < 4294967296 := by decide
      have hfew : e.seqLen ≤ 65536 := hseqLen.trans_le (by decide)
      have htexts : ∀ t ∈ [e.text 1, e.text 0], ∃ k, t.lower = (e.text k).lower := by
        intro t ht
        rcases List.mem_pair.1 ht with rfl | rfl
        · exact ⟨1, rfl⟩
        · exact ⟨0, rfl⟩
      obtain ⟨-, hmessage, hcomplete⟩ := round_trip he hpayload hfew htexts
      refine ⟨e, rfl, hpayload, hfew, htexts, (hmessage (hcomplete ?_)).2.1⟩
      intro k hk
      rw [hseqLen] at hk
      have hk : k = 0 ∨ k = 1 := by omega
      rcases hk with rfl | rfl
      · exact ⟨_, List.mem_cons_of_mem _ List.mem_cons_self, rfl⟩
      · exact ⟨_, List.mem_cons_self, rfl⟩

end Decoder

end UrReplay.Resource
