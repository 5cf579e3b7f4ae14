import UrReplay.Proofs.Resource.RoundTrip
/-!
# UrReplay.Proofs.Resource.Acceptance

Which texts of an encoder a fresh decoder accepts: all of them, or none (`receive_text_fresh`). The only
limit on which the two do not agree is that on the number of fragments. A decoder does not take in more
than 65536, and an encoder sends as many as the payload needs (`receive_text_too_many`).
-/

namespace UrReplay.Resource.Decoder

variable {type : Text} {payload : Bytes} {maxFragmentLen : Nat} {e : Encoder}

/-- Up to the limit, every text is accepted. -/
theorem receive_text_of_le (he : Encoder.ofPayload type payload maxFragmentLen = .ok e)
    (hpayload : payload.length < 4294967296) (hfew : e.seqLen ≤ 65536) (k : Nat) :
    ∃ d, empty.receive (e.text k) = .ok d := by
  have hnone : ∀ t ∈ ([] : List Text), e.Emits t := fun _ ht => absurd ht List.not_mem_nil
  obtain ⟨hdelivers, -⟩ := delivers_of_ofPayload he hpayload hfew hnone
  exact hdelivers.accepts rfl _ ⟨k, rfl⟩

/-- Beyond the limit, every text is refused for the number of fragments. -/
theorem receive_text_of_lt (he : Encoder.ofPayload type payload maxFragmentLen = .ok e)
    (hpayload : payload.length < 4294967296) (hmany : 65536 < e.seqLen) (k : Nat) :
    empty.receive (e.text k) = .error (.fountain (.refused (.tooManyFragments e.seqLen))) := by
  obtain ⟨htype, rfl, rfl, hfountain⟩ := Encoder.ofPayload_eq_ok he
  have hsends := Fountain.Encoder.sends_ofMessage hfountain
  have hmulti : e.fountain.isSinglePart = false := by
    have hne : e.fountain.seqLen ≠ 1 := (Nat.lt_trans (by decide) hmany).ne'
    exact decide_eq_false hne
  obtain ⟨seqNum, hcarried, htext⟩ := Encoder.exists_carried_text hsends hpayload hmulti
    (Fountain.Encoder.seqNum_ofMessage hfountain) k
  have hflaw : (e.fountain.part seqNum).flaw? = some (.tooManyFragments e.seqLen) :=
    (hsends.flaw?_part_eq seqNum).trans (if_pos hmany)
  have hlower : (e.text k).lower = renderPart e.type (e.fountain.part seqNum) := by
    rw [htext, lower_eq_self_of_isPlain (isPlain_of_mem_renderPart htype _)]
  rw [receive_renderPart rfl htype rfl hcarried hlower, Fountain.Decoder.receive_of_flaw hflaw]
  rfl

/-- A fresh decoder accepts every text of an encoder if the payload has at most 65536 fragments, and
otherwise refuses every one for that number. -/
theorem receive_text_fresh (he : Encoder.ofPayload type payload maxFragmentLen = .ok e)
    (hpayload : payload.length < 4294967296) (k : Nat) :
    (e.seqLen ≤ 65536 → ∃ d, empty.receive (e.text k) = .ok d) ∧
      (65536 < e.seqLen →
        empty.receive (e.text k) = .error (.fountain (.refused (.tooManyFragments e.seqLen)))) :=
  ⟨fun hfew => receive_text_of_le he hpayload hfew k,
    fun hmany => receive_text_of_lt he hpayload hmany k⟩

/-- Twenty bytes in two fragments. -/
theorem receive_text_fresh_two_fragments :
    ∃ e, Encoder.ofPayload ['b', 'y', 't', 'e', 's'] (List.replicate 20 7) 10 = .ok e ∧
      (List.replicate 20 (7 : UInt8)).length < 4294967296 ∧ e.seqLen ≤ 65536 ∧
      ∃ d, empty.receive (e.text 5) = .ok d := by
  have hlen : Fountain.fragmentLength? 20 Fountain.minFragmentLen 10 = some 10 := by decide
  obtain ⟨e, he, hseqLen⟩ :
      ∃ e, Encoder.ofPayload ['b', 'y', 't', 'e', 's'] (List.replicate 20 7) 10 = .ok e ∧
        e.seqLen = Fountain.fragmentCount 20 10 :=
    Encoder.exists_ofPayload_eq_ok (by decide) (by decide) hlen
  have hpayload : (List.replicate 20 (7 : UInt8)).length < 4294967296 := by decide
  have hfew : e.seqLen ≤ 65536 := hseqLen.trans_le (by decide)
  exact ⟨e, he, hpayload, hfew, (receive_text_fresh he hpayload 5).1 hfew⟩

/-- In fragments of ten bytes, 655370 bytes are one fragment too many: they are sent, and refused. -/
theorem refused_too_many :
    ∃ e, Encoder.ofPayload ['b', 'y', 't', 'e', 's'] (List.replicate 655370 0) 10 = .ok e ∧
      (List.replicate 655370 (0 : UInt8)).length < 4294967296 ∧
      empty.receive (e.text 0) = .error (.fountain (.refused (.tooManyFragments 65537))) := by
  have hlength : (List.replicate 655370 (0 : UInt8)).length = 655370 := List.length_replicate
  have hlen : Fountain.fragmentLength? 655370 Fountain.minFragmentLen 10 = some 10 := by
    refine Fountain.firstLength?_eq_some_iff.2
      ⟨65537, by decide, by decide, by decide, by decide, ?_⟩
    intro c hpos hlt
    by_contra hle
    have hcover := (Fountain.fragmentCount_le_iff hpos).1 (Nat.le_of_not_lt hle)
    omega
  have hpayload : List.replicate 655370 (0 : UInt8) ≠ [] := by
    rw [← List.length_pos_iff, hlength]
    decide
  obtain ⟨e, he, hseqLen⟩ :
      ∃ e, Encoder.ofPayload ['b', 'y', 't', 'e', 's'] (List.replicate 655370 0) 10 = .ok e ∧
        e.seqLen = Fountain.fragmentCount (List.replicate 655370 (0 : UInt8)).length 10 :=
    Encoder.exists_ofPayload_eq_ok (by decide) hpayload (hlength.symm ▸ hlen)
  have hmany : e.seqLen = 65537 := by
    rw [hseqLen, hlength]
    rfl
  have hshort : (List.replicate 655370 (0 : UInt8)).length < 4294967296 := by
    rw [hlength]
    decide
  have hrefused := receive_text_of_lt he hshort (by omega) 0
  rw [hmany] at hrefused
  exact ⟨e, he, hshort, hrefused⟩

end UrReplay.Resource.Decoder
