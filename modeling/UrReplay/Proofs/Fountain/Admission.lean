import UrReplay.Proofs.Fountain.Header
import UrReplay.Proofs.Fountain.Invariant
/-!
# UrReplay.Proofs.Fountain.Admission

Which parts a decoder lets in, whatever their fields. An accepted part is of a transfer that makes sense,
with at least one fragment and indexes below their number, or it is number zero of an empty message in no
fragments (`receive_meaningful`). A header cannot carry the latter, but a part can be made that does, and
a fresh decoder accepts it (`accepts_empty_message`): the check of a part compares the number of fragments
with the one that the message needs, and an empty message needs none. Any other number of such a message
makes the decoder panic (`receive_eq_panicked_iff`).
-/

namespace UrReplay.Fountain

namespace Decoder

variable {parts : List Part} {part : Part} {d' : Decoder}

/-- A part that is accepted is of the same transfer as all that were accepted before. -/
theorem transfer_eq_of_mem_accepted (h : (empty.receiveAll parts).receive part = .ok d')
    {earlier : Part} (hearlier : earlier ∈ empty.accepted parts) :
    earlier.transfer = part.transfer := by
  obtain ⟨-, hagree, -⟩ := receive_eq_ok_iff.1 h
  rw [transfer_of_mem_accepted hearlier] at hagree
  exact Option.some.inj (hagree.resolve_left (Option.some_ne_none _))

/-- If the message of an accepted part is not empty, no decoder that accepts it has gone wrong: what came
before was of the same message. -/
theorem settled_of_receive (h : (empty.receiveAll parts).receive part = .ok d')
    (hmessage : 1 ≤ part.messageLen) : Settled d' := by
  have hd : Settled (empty.receiveAll parts) := by
    refine settled_of_accepted fun earlier hearlier => ?_
    have hsame := congrArg Transfer.messageLen (transfer_eq_of_mem_accepted h hearlier)
    exact hmessage.trans_eq hsame.symm
  exact hd.receive hmessage h

/-- After any parts, an accepted part is number zero of an empty message in no fragments, or of a message
that is not empty in 1 to 65536 fragments. In the second case it mixes none but these fragments, and no
more of them are recovered than there are. What is read from a header is of the second kind. -/
theorem receive_meaningful (parts : List Part) (part : Part) (d' : Decoder)
    (h : (empty.receiveAll parts).receive part = .ok d') :
    (part.seqNum = 0 ∧ part.seqLen = 0 ∧ part.messageLen = 0 ∨
        1 ≤ part.seqLen ∧ part.seqLen ≤ 65536 ∧ 1 ≤ part.messageLen ∧
          (∀ i ∈ part.indexes, i < part.seqLen) ∧
          ∃ n, d'.seqLen? = some n ∧ d'.recovered.size ≤ n) ∧
      ∀ bytes, Part.ofCbor bytes = .ok part → part.messageLen ≠ 0 := by
  obtain ⟨hflaw, -, hnum⟩ := exists_receive_eq_ok_iff.1 ⟨d', h⟩
  refine ⟨?_, fun bytes hbytes =>
    Nat.one_le_iff_ne_zero.1 (Part.messageLen_pos hbytes)⟩
  rcases Nat.eq_zero_or_pos part.messageLen with hempty | hmessage
  · have hlen := (Part.seqLen_eq_zero_iff hflaw).2 hempty
    exact .inl ⟨hnum hlen, hlen, hempty⟩
  · have hwithin := Part.within_mix hflaw hmessage
    have htransfer := transfer_receive h (transfer_ne_none_of_isComplete parts)
    have hseq : d'.seqLen? = some part.seqLen := by
      rw [seqLen?, htransfer]
      rfl
    exact .inr ⟨Part.seqLen_pos hflaw hmessage, (Part.flaw?_eq_none_iff.1 hflaw).2.2, hmessage,
      fun i hi => hwithin.lt i (Part.mem_support_mix.2 hi), part.seqLen, hseq,
      (settled_of_receive h hmessage).size_le hseq⟩

/-- The first of two fragments. -/
theorem receive_meaningful_two_fragments :
    let part : Part := ⟨1, 2, 2, 0, [0x2a]⟩
    let d' := empty.accept part.transfer part.mix
    (empty.receiveAll []).receive part = .ok d' ∧ (∀ i ∈ part.indexes, i < 2) ∧
      ∃ n, d'.seqLen? = some n ∧ d'.recovered.size ≤ n := by
  intro part d'
  have h : (empty.receiveAll []).receive part = .ok d' :=
    receive_eq_ok (by decide) (by decide) (Or.inl rfl)
  obtain ⟨⟨hseq, -⟩ | ⟨-, -, -, hindexes, hrecovered⟩, -⟩ := receive_meaningful [] part d' h
  · exact absurd hseq (by decide)
  · exact ⟨h, hindexes, hrecovered⟩

/-- Not every accepted part makes sense: a fresh decoder accepts number zero of an empty message in no
fragments. -/
theorem accepts_empty_message :
    ¬∀ (parts : List Part) (part : Part) (d' : Decoder),
      (empty.receiveAll parts).receive part = .ok d' →
        1 ≤ part.seqLen ∧ part.seqLen ≤ 65536 ∧ 1 ≤ part.messageLen ∧
          (∀ i ∈ part.indexes, i < part.seqLen) ∧
          ∃ n, d'.seqLen? = some n ∧ d'.recovered.size ≤ n := by
  intro hall
  let part : Part := ⟨0, 0, 0, 0, [0]⟩
  have h : (empty.receiveAll []).receive part = .ok (empty.accept part.transfer part.mix) :=
    receive_eq_ok_iff.2 ⟨by decide, Or.inl rfl, rfl, fun _ _ => rfl⟩
  exact absurd (hall [] part _ h).1 (by decide)

end Decoder

end UrReplay.Fountain
