import UrReplay.Proofs.Fountain.Derivation
import UrReplay.Proofs.Fountain.Encoder
import UrReplay.Proofs.Fountain.Progress
/-!
# UrReplay.Proofs.Fountain.Transmission

From an encoder to a decoder, whatever is lost, repeated or reordered on the way.

No part of the encoder is refused (`Sends.accepted_eq`). Whatever the decoder stores is a sum of the
fragments of the message, so once it has ended it has the message (`Sends.message?_eq`); and it has
ended when every part with a single fragment has arrived (`Sends.isComplete`).
-/

namespace UrReplay.Fountain

namespace Encoder

/-- The transfer that all parts belong to. -/
def transfer (e : Encoder) : Transfer := ⟨e.seqLen, e.messageLen, e.checksum, e.fragmentLen⟩

/-- Parts that were all sent by an encoder, in any order. -/
def Sent (e : Encoder) (parts : List Part) : Prop := ∀ part ∈ parts, ∃ seqNum, part = e.part seqNum

namespace Sends

variable {message : Bytes} {e : Encoder} {parts : List Part}

theorem transfer_part (h : Sends message e) (seqNum : UInt32) :
    (e.part seqNum).transfer = e.transfer := by
  rw [Part.transfer, h.length_data_part]
  rfl

theorem messageLen_pos (h : Sends message e) : 1 ≤ e.messageLen := by
  rw [h.messageLen]
  exact List.length_pos_iff.2 h.nonempty

theorem messageLen_of_sent (h : Sends message e) (hparts : e.Sent parts) :
    ∀ part ∈ parts, 1 ≤ part.messageLen := by
  intro part hpart
  obtain ⟨seqNum, rfl⟩ := hparts part hpart
  exact h.messageLen_pos

/-- A part is accepted by every decoder that is fresh or in the same transfer, and leaves it in that
transfer. -/
theorem receive_part (h : Sends message e) (hseq : e.seqLen ≤ maxSeqLen) {d : Decoder}
    (hd : d.transfer = none ∨ d.transfer = some e.transfer) (seqNum : UInt32) :
    ∃ d', d.receive (e.part seqNum) = .ok d' ∧
      (d'.transfer = none ∨ d'.transfer = some e.transfer) := by
  have htransfer := h.transfer_part seqNum
  refine ⟨_, Decoder.receive_eq_ok (h.flaw?_part hseq seqNum) h.messageLen_pos (htransfer ▸ hd), ?_⟩
  split
  · exact hd
  · rw [Decoder.transfer_accept, htransfer]
    exact Or.inr rfl

/-- No part is refused. -/
theorem accepted_eq (h : Sends message e) (hseq : e.seqLen ≤ maxSeqLen) (hparts : e.Sent parts)
    {d : Decoder} (hd : d.transfer = none ∨ d.transfer = some e.transfer) :
    d.accepted parts = parts := by
  induction parts generalizing d with
  | nil => rfl
  | cons part parts ih =>
    obtain ⟨⟨seqNum, rfl⟩, hrest⟩ := List.forall_mem_cons.1 hparts
    obtain ⟨d', hreceive, hd'⟩ := h.receive_part hseq hd seqNum
    rw [Decoder.accepted, hreceive]
    exact congrArg _ (ih hrest hd')

/-- The decoder is fresh or in the transfer. -/
theorem transfer_receiveAll (h : Sends message e) (hparts : e.Sent parts) :
    (Decoder.empty.receiveAll parts).transfer = none ∨
      (Decoder.empty.receiveAll parts).transfer = some e.transfer := by
  rw [Decoder.transfer_receiveAll]
  cases hhead : (Decoder.empty.accepted parts).head? with
  | none => exact Or.inl rfl
  | some first =>
      obtain ⟨seqNum, rfl⟩ :=
        hparts first (Decoder.mem_of_mem_accepted (List.mem_of_mem_head? hhead))
      rw [Option.map_some, h.transfer_part]
      exact Or.inr rfl

/-- In the end, the fragments that were recovered are those of the message. -/
theorem fragments_eq (h : Sends message e) (hparts : e.Sent parts) {t : Transfer}
    (hfinished : Decoder.Finished t (Decoder.empty.receiveAll parts)) (ht : t.seqLen = e.seqLen) :
    (Decoder.empty.receiveAll parts).fragments = (List.range e.seqLen).map e.fragment := by
  have hencodes : ∀ part ∈ Decoder.empty.accepted parts,
      part.mix.Encodes e.fragment e.fragmentLen := by
    intro part hpart
    obtain ⟨seqNum, rfl⟩ := hparts part (Decoder.mem_of_mem_accepted hpart)
    exact h.encodes_part seqNum
  have hrecovered : ∀ i ∈ List.range e.seqLen,
      (Decoder.empty.receiveAll parts).recovered[i]? = some (e.fragment i) := by
    intro i hi
    have hknown : i ∈ (Decoder.empty.receiveAll parts).known := by
      rw [hfinished.known_eq, ht]
      exact Finset.mem_range.2 (List.mem_range.1 hi)
    obtain ⟨data, hdata⟩ := Decoder.mem_known_iff_exists.1 hknown
    rw [hdata, Mix.encodes_ofFragment (Decoder.encodes_of_stores hencodes (.recovered hdata))]
  have hmap := hfinished.map_recovered
  rw [ht, List.map_congr_left hrecovered] at hmap
  refine (Option.some_injective Bytes).list_map ?_
  rw [← hmap, List.map_map]
  rfl

/-- Once the transfer has ended, it has ended with the message. -/
theorem message?_eq (h : Sends message e) (hparts : e.Sent parts)
    (hcomplete : (Decoder.empty.receiveAll parts).isComplete = true) :
    (Decoder.empty.receiveAll parts).message? = some message := by
  obtain ⟨first, hfirst, -, hfinished⟩ :=
    Decoder.exists_finished (h.messageLen_of_sent hparts) hcomplete
  obtain ⟨seqNum, rfl⟩ :=
    hparts first (Decoder.mem_of_mem_accepted (List.mem_of_mem_head? hfirst))
  rw [h.transfer_part] at hfinished
  have hassemble : (Decoder.empty.receiveAll parts).assemble e.transfer = message := by
    rw [Decoder.assemble_eq, h.fragments_eq hparts hfinished rfl]
    rw [transfer, h.messageLen, h.take_flatten_fragments]
  have hchecksum : Crc32.checksum message = e.transfer.checksum := h.checksum.symm
  rw [Decoder.message?_eq_some_iff, hfinished.outcome, Decoder.verdict, hassemble,
    if_pos hchecksum]

/-- When every part of one fragment has arrived, the transfer has ended. -/
theorem isComplete (h : Sends message e) (hseq : e.seqLen ≤ maxSeqLen) (hparts : e.Sent parts)
    (hall : ∀ k < e.seqLen, e.part (.ofNat (k + 1)) ∈ parts) :
    (Decoder.empty.receiveAll parts).isComplete = true := by
  have haccepted : Decoder.empty.accepted parts = parts := h.accepted_eq hseq hparts (Or.inl rfl)
  have hseqLen : (Decoder.empty.receiveAll parts).seqLen? = some e.seqLen := by
    have hmem : e.part (.ofNat (0 + 1)) ∈ Decoder.empty.accepted parts := by
      rw [haccepted]
      exact hall 0 h.seqLen_pos
    rw [Decoder.seqLen?, Decoder.transfer_of_mem_accepted hmem]
    rfl
  refine Decoder.isComplete_of_singles (h.messageLen_of_sent hparts) hseqLen ?_
  intro k hk
  rw [haccepted]
  exact ⟨_, hall k hk, toFinset_indexes_part hk (toNat_succ_of_lt hk hseq)⟩

end Sends

end Encoder

end UrReplay.Fountain
