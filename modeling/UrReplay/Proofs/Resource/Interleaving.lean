import UrReplay.Proofs.Resource.RoundTrip
/-!
# UrReplay.Proofs.Resource.Interleaving

Two transfers at once do not disturb each other (`receiveAll_interleaved`).

The first text that a decoder accepts fixes the type, and the part that it carries fixes the
transfer. From then on the decoder is `Engaged` with one encoder: this is kept by every text of that
encoder (`Engaged.receive`), and every text of an encoder with another type or another transfer is
refused (`Engaged.refuses`). So the other texts may as well not have been sent, and what is left is a
transmission of one payload, to which the round trip applies.
-/

namespace UrReplay.Resource.Decoder

variable {a b e : Encoder} {d d' : Decoder} {t : Text}

/-! ### A decoder with one encoder -/

/-- A decoder that has accepted texts of one encoder, which sends part by part, and no others. -/
structure Engaged (e : Encoder) (d : Decoder) : Prop where
  carrying : Carrying e.type d
  type : d.type = some e.type
  transfer : d.fountain.transfer = some e.fountain.transfer

/-- A text is accepted by a decoder that is fresh or engaged, and leaves it engaged. -/
theorem SendsParts.exists_engaged (h : SendsParts e) (hcarrying : Carrying e.type d)
    (htransfer : d.fountain.transfer = none ∨ d.fountain.transfer = some e.fountain.transfer)
    (hd : d.isComplete = false) (ht : e.Emits t) : ∃ d', d.receive t = .ok d' ∧ Engaged e d' := by
  obtain ⟨_, ⟨seqNum, rfl⟩, hcarried, hlower⟩ := h.exists_part ht
  have heq := h.sends.transfer_part seqNum
  have hreceive := Fountain.Decoder.receive_eq_ok (h.sends.flaw?_part h.few seqNum)
    h.sends.messageLen_pos (heq ▸ htransfer)
  rw [← hcarrying.isComplete, hd, if_neg Bool.false_ne_true] at hreceive
  have hbelongs : (d.fountain.accept (e.fountain.part seqNum).transfer
      (e.fountain.part seqNum).mix).transfer = some e.fountain.transfer := by
    rw [Fountain.Decoder.transfer_accept, heq]
  refine ⟨_, ?_, hcarrying.withType _, hcarrying.type_withType _, hbelongs⟩
  rw [hcarrying.receive hd h.type hcarried hlower, hreceive]
  rfl

namespace Engaged

/-- What the encoder sends leaves the decoder engaged. -/
theorem receive (h : Engaged e d) (he : SendsParts e) (ht : e.Emits t) (hd' : d.receive t = .ok d') :
    Engaged e d' := by
  cases hd : d.isComplete with
  | true =>
      rw [receive_of_isComplete hd] at hd'
      exact absurd hd' (by simp)
  | false =>
      obtain ⟨d'', hreceive, hengaged⟩ := he.exists_engaged h.carrying (Or.inr h.transfer) hd ht
      rw [hd'] at hreceive
      rwa [Except.ok.inj hreceive]

/-- What another encoder sends is refused, if the type or the transfer is another one. -/
theorem refuses (h : Engaged a d) (hb : SendsParts b)
    (hdiffer : a.type ≠ b.type ∨ a.fountain.transfer ≠ b.fountain.transfer) (ht : b.Emits t) :
    ∃ error, d.receive t = .error error := by
  cases hd : d.isComplete with
  | true => exact ⟨_, receive_of_isComplete hd t⟩
  | false =>
      obtain ⟨_, ⟨seqNum, rfl⟩, hcarried, hlower⟩ := hb.exists_part ht
      by_cases htype : a.type = b.type
      · have hforeign : a.fountain.transfer ≠ (b.fountain.part seqNum).transfer := by
          rw [hb.sends.transfer_part]
          exact hdiffer.resolve_left fun hne => hne htype
        obtain ⟨parameter, hrefused⟩ := Fountain.Decoder.receive_of_foreign
          (hb.sends.flaw?_part hb.few seqNum) h.transfer hforeign
        have hcarrying := h.carrying
        rw [htype] at hcarrying
        refine ⟨.fountain (.refused (.foreign parameter)), ?_⟩
        rw [hcarrying.receive hd hb.type hcarried hlower, hrefused]
        rfl
      · have hparse := parse_renderPart hb.type hcarried.seqNum hcarried.seqLen_pos
          (hcarried.seqLen_lt.trans (by decide)) hlower
        have hcheck : d.checkType b.type = .error (.typeMismatch a.type b.type) := by
          rw [checkType, h.type]
          exact if_neg htype
        exact ⟨_, receive_of_checkType_eq_error hd hparse hcheck⟩

/-- Of what two encoders send, the decoder takes in what its own one sends, and nothing else. -/
theorem receiveAll (h : Engaged a d) (ha : SendsParts a) (hb : SendsParts b)
    (hdiffer : a.type ≠ b.type ∨ a.fountain.transfer ≠ b.fountain.transfer)
    (sent : List (Nat ⊕ Nat)) :
    Engaged a (d.receiveAll (sent.map (Sum.elim a.text b.text))) ∧
      d.receiveAll (sent.map (Sum.elim a.text b.text)) =
        d.receiveAll ((sent.filterMap Sum.getLeft?).map a.text) := by
  induction sent generalizing d with
  | nil => exact ⟨h, rfl⟩
  | cons next sent ih =>
    cases next with
    | inl k =>
        show Engaged a (d.receiveAll (a.text k :: _)) ∧
          d.receiveAll (a.text k :: _) = d.receiveAll (a.text k :: _)
        rw [Decoder.receiveAll, Decoder.receiveAll]
        cases hreceive : d.receive (a.text k) with
        | error error => exact ih h
        | ok d' => exact ih (h.receive ha ⟨k, rfl⟩ hreceive)
    | inr k =>
        obtain ⟨error, hrefused⟩ := h.refuses hb hdiffer ⟨k, rfl⟩
        show Engaged a (d.receiveAll (b.text k :: _)) ∧ d.receiveAll (b.text k :: _) = _
        rw [Decoder.receiveAll, hrefused]
        exact ih h

end Engaged

/-! ### Two encoders at once -/

/-- Interleaved transfers do not interfere. Two encoders of payloads of many fragments send under
different types or in different transfers, and their texts arrive in any order, with any losses and
repetitions, a text of `a` first. Then every text of `b` is refused, the decoder is in the state in
which the texts of `a` alone leave it, and once it is complete, it is successful and has the payload
of `a`. -/
theorem receiveAll_interleaved {typeA typeB : Text} {payloadA payloadB : Bytes} {maxA maxB : Nat}
    (ha : Encoder.ofPayload typeA payloadA maxA = .ok a)
    (hb : Encoder.ofPayload typeB payloadB maxB = .ok b)
    (hpayloadA : payloadA.length < 4294967296) (hpayloadB : payloadB.length < 4294967296)
    (hseqA : 2 ≤ a.seqLen ∧ a.seqLen ≤ 65536) (hseqB : 2 ≤ b.seqLen ∧ b.seqLen ≤ 65536)
    (hdiffer : typeA ≠ typeB ∨ a.fountain.transfer ≠ b.fountain.transfer)
    (first : Nat) (rest : List (Nat ⊕ Nat)) :
    let sent := Sum.inl first :: rest
    let d := empty.receiveAll (sent.map (Sum.elim a.text b.text))
    (∀ k, ∃ error, d.receive (b.text k) = .error error) ∧
      d = empty.receiveAll ((sent.filterMap Sum.getLeft?).map a.text) ∧
      (d.isComplete = true →
        d.isSuccessful = true ∧ d.message? = some payloadA ∧ d.type = some typeA) := by
  intro sent d
  have hmulti {e : Encoder} (hseq : 2 ≤ e.seqLen) : e.fountain.isSinglePart = false :=
    decide_eq_false (Nat.ne_of_gt hseq)
  have hpartsA := sendsParts_of_ofPayload ha hpayloadA (hmulti hseqA.1) hseqA.2
  have hpartsB := sendsParts_of_ofPayload hb hpayloadB (hmulti hseqB.1) hseqB.2
  obtain ⟨-, rfl, rfl, -⟩ := Encoder.ofPayload_eq_ok ha
  obtain ⟨-, rfl, rfl, -⟩ := Encoder.ofPayload_eq_ok hb
  -- The first text engages the decoder.
  obtain ⟨d₁, hfirst, hengaged⟩ :=
    hpartsA.exists_engaged (t := a.text first) (carrying_empty a.type) (Or.inl rfl) rfl ⟨first, rfl⟩
  obtain ⟨hend, hown⟩ := hengaged.receiveAll hpartsA hpartsB hdiffer rest
  have hd : d = d₁.receiveAll (rest.map (Sum.elim a.text b.text)) := by
    show empty.receiveAll (a.text first :: _) = _
    rw [Decoder.receiveAll, hfirst]
  have halone : d = empty.receiveAll ((sent.filterMap Sum.getLeft?).map a.text) := by
    rw [hd, hown]
    show _ = empty.receiveAll (a.text first :: _)
    rw [Decoder.receiveAll, hfirst]
  refine ⟨fun k => ?_, halone, fun hcomplete => ?_⟩
  · rw [hd]
    exact hend.refuses hpartsB hdiffer ⟨k, rfl⟩
  · have htexts : ∀ t ∈ (sent.filterMap Sum.getLeft?).map a.text, a.Emits t := by
      intro t ht
      obtain ⟨k, -, rfl⟩ := List.mem_map.1 ht
      exact ⟨k, rfl⟩
    have hdelivers := hpartsA.delivers htexts
    rw [halone] at hcomplete ⊢
    exact ⟨hdelivers.successful hcomplete, hdelivers.message hcomplete, hdelivers.type hcomplete⟩

theorem exists_encoder_of_transfer {type : Text} {payload : Bytes} {maxFragmentLen : Nat}
    {transfer : Fountain.Transfer}
    (h : (Encoder.ofPayload type payload maxFragmentLen).toOption.map (·.fountain.transfer) =
      some transfer) :
    ∃ e, Encoder.ofPayload type payload maxFragmentLen = .ok e ∧ e.fountain.transfer = transfer := by
  cases he : Encoder.ofPayload type payload maxFragmentLen with
  | error error =>
      rw [he] at h
      exact absurd h (by simp [Except.toOption])
  | ok e =>
      rw [he] at h
      exact ⟨e, rfl, Option.some.inj h⟩

/-- Two payloads of twenty bytes that differ in their check values. -/
theorem receiveAll_interleaved_two_checksums :
    ∃ a b, Encoder.ofPayload ['b', 'y', 't', 'e', 's'] (List.replicate 20 7) 10 = .ok a ∧
      Encoder.ofPayload ['b', 'y', 't', 'e', 's'] (List.replicate 20 8) 10 = .ok b ∧
      (2 ≤ a.seqLen ∧ a.seqLen ≤ 65536) ∧ (2 ≤ b.seqLen ∧ b.seqLen ≤ 65536) ∧
      a.fountain.transfer ≠ b.fountain.transfer ∧
      empty.receiveAll [a.text 1, b.text 0, a.text 0] = empty.receiveAll [a.text 1, a.text 0] := by
  have hsomeA : (Encoder.ofPayload ['b', 'y', 't', 'e', 's'] (List.replicate 20 7) 10).toOption.map
      (·.fountain.transfer) = some ⟨2, 20, 3920750422, 10⟩ := by decide +kernel
  have hsomeB : (Encoder.ofPayload ['b', 'y', 't', 'e', 's'] (List.replicate 20 8) 10).toOption.map
      (·.fountain.transfer) = some ⟨2, 20, 2590162431, 10⟩ := by decide +kernel
  obtain ⟨a, ha, htransferA⟩ := exists_encoder_of_transfer hsomeA
  obtain ⟨b, hb, htransferB⟩ := exists_encoder_of_transfer hsomeB
  have hseqA : a.seqLen = 2 := congrArg Fountain.Transfer.seqLen htransferA
  have hseqB : b.seqLen = 2 := congrArg Fountain.Transfer.seqLen htransferB
  have hdiffer : a.fountain.transfer ≠ b.fountain.transfer := by
    rw [htransferA, htransferB]
    decide
  have hpayload (n : UInt8) : (List.replicate 20 n).length < 4294967296 := by
    rw [List.length_replicate]
    decide
  have hboundsA : 2 ≤ a.seqLen ∧ a.seqLen ≤ 65536 := by omega
  have hboundsB : 2 ≤ b.seqLen ∧ b.seqLen ≤ 65536 := by omega
  exact ⟨a, b, ha, hb, hboundsA, hboundsB, hdiffer,
    (receiveAll_interleaved ha hb (hpayload 7) (hpayload 8) hboundsA hboundsB (Or.inr hdiffer) 1
      [.inr 0, .inl 0]).2.1⟩

end UrReplay.Resource.Decoder
