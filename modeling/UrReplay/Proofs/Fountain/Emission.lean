import UrReplay.Proofs.Fountain.Encoder
/-!
# UrReplay.Proofs.Fountain.Emission

The parts that an encoder sends, one after another. Sending changes nothing but the number of the last
part (`after_eq`): the parts are numbered on, and at the greatest number the encoder stays there
(`toNat_seqNum_after`). Each part mixes a choice of fragments, and what it carries is their sum
(`chooseFragments_valid`).

The message is in as few fragments as the greatest length allows (`isLeast_seqLen_ofMessage`), and the
parts that carry one fragment each are the message, cut to pieces (`emission`).
-/

namespace UrReplay.Fountain

namespace Encoder

variable {e : Encoder} {message : Bytes} {maxFragmentLen : Nat}

/-- The encoder after its last part had number `seqNum`. -/
def withSeqNum (e : Encoder) (seqNum : UInt32) : Encoder := { e with seqNum }

/-- The encoder after it has sent `k` parts. -/
def after (e : Encoder) : (k : Nat) → Encoder
  | 0 => e
  | k + 1 => (e.after k).next.2

theorem toNat_nextSeqNum (e : Encoder) :
    e.nextSeqNum.toNat = min (e.seqNum.toNat + 1) 4294967295 := by
  have hlt := e.seqNum.toNat_lt
  unfold nextSeqNum
  split
  · rename_i hmax
    rw [hmax]
    rfl
  · rename_i hmax
    have hne : e.seqNum.toNat ≠ 4294967295 := fun heq => hmax (UInt32.toNat_inj.1 heq)
    rw [UInt32.toNat_add]
    show (e.seqNum.toNat + 1) % 2 ^ 32 = _
    omega

theorem seqNum_ofMessage (h : ofMessage message maxFragmentLen = .ok e) : e.seqNum = 0 := by
  obtain ⟨-, len, -, rfl⟩ := ofMessage_eq_ok_iff.1 h
  rfl

/-- What an encoder has sent changes nothing in it but the number of the last part. -/
theorem after_eq (e : Encoder) (k : Nat) : e.after k = e.withSeqNum (e.after k).seqNum := by
  induction k with
  | zero => rfl
  | succ k ih =>
    rw [after, ih]
    rfl

/-- The parts are numbered on from the last one. -/
theorem toNat_seqNum_after (e : Encoder) (k : Nat) :
    (e.after k).seqNum.toNat = min (e.seqNum.toNat + k) 4294967295 := by
  induction k with
  | zero =>
    have hlt := e.seqNum.toNat_lt
    show e.seqNum.toNat = _
    omega
  | succ k ih =>
    show (e.after k).nextSeqNum.toNat = _
    rw [toNat_nextSeqNum, ih]
    omega

/-- A part depends on its number, and on nothing that was sent before. -/
theorem fst_next_after (e : Encoder) (k : Nat) :
    (e.after k).next.1 = e.part (e.after (k + 1)).seqNum := by
  rw [after, after_eq]
  rfl

end Encoder

/-! ### Choices and sums -/

/-- What a part mixes is a choice, whatever the generator draws and however its numbers are rounded: at
least one fragment and at most all of them, none twice, and none that does not exist. The parts up to
`seqLen` carry one fragment each. As none is chosen twice, a part has as many indexes as were chosen, and
the sum that an encoder sends, taken in the order of the draw, is that over the set. -/
theorem chooseFragments_valid (seqNum : UInt32) {seqLen : Nat} (checksum : UInt32)
    (hlen : 1 ≤ seqLen) :
    ∃ chosen, chooseFragments seqNum seqLen checksum = some chosen ∧
      (chosen ≠ [] ∧ chosen.length ≤ seqLen ∧ chosen.Nodup ∧ ∀ i ∈ chosen, i < seqLen) ∧
      (seqNum.toNat ≤ seqLen → chosen = [seqNum.toNat - 1]) ∧
      (∀ g : Xoshiro, IsChoice seqLen (g.mixture seqLen hlen)) ∧
      (∀ part : Part, part.seqNum = seqNum → part.seqLen = seqLen → part.checksum = checksum →
        part.indexes.card = chosen.length) ∧
      ∀ (message : Bytes) (maxFragmentLen : Nat) (e : Encoder),
        Encoder.ofMessage message maxFragmentLen = .ok e → ∀ k,
          let part := (e.after k).next.1
          (∀ i ∈ part.indexes, i < e.fragments.size) ∧
            part.data = Mix.sumOver e.fragment e.fragmentLen part.indexes := by
  obtain ⟨chosen, hchosen, hchoice⟩ := exists_chooseFragments seqNum checksum hlen
  refine ⟨chosen, hchosen,
    ⟨hchoice.nonempty, hchoice.length_le, hchoice.nodup, hchoice.lt⟩, ?_,
    fun g => g.isChoice_mixture hlen, ?_, ?_⟩
  · intro hle
    exact Option.some.inj (hchosen.symm.trans (chooseFragments_of_le hle checksum))
  · rintro part rfl rfl rfl
    obtain ⟨chosen', hchosen', -, -, hperm⟩ := part.exists_indexes hlen
    obtain rfl := Option.some.inj (hchosen.symm.trans hchosen')
    exact hperm.length_eq.symm
  · intro message maxFragmentLen e he k
    have hsends := Encoder.sends_ofMessage he
    rw [e.fst_next_after]
    exact ⟨fun i hi => hsends.lt_of_mem_indexes hi, hsends.data_part _⟩

/-- Eleven fragments: the third part carries the third of them, and the thirteenth a mixture. -/
theorem chooseFragments_valid_eleven :
    1 ≤ 11 ∧ chooseFragments 3 11 7 = some [2] ∧
      ∃ chosen, chooseFragments 13 11 7 = some chosen ∧ chosen.Nodup ∧ chosen.length ≤ 11 ∧
        (⟨13, 11, 101, 7, List.replicate 10 0⟩ : Part).indexes.card = chosen.length := by
  have hlen : 1 ≤ 11 := by decide
  obtain ⟨chosen, hchosen, ⟨-, hlength, hnodup, -⟩, -, -, hcard, -⟩ := chooseFragments_valid 13 7 hlen
  obtain ⟨third, hthird, -, hsimple, -⟩ := chooseFragments_valid 3 7 hlen
  obtain rfl := hsimple (by decide)
  exact ⟨hlen, hthird, chosen, hchosen, hnodup, hlength, hcard _ rfl rfl rfl⟩

/-! ### The message in parts -/

namespace Encoder

variable {e : Encoder} {message : Bytes} {maxFragmentLen : Nat}

theorem fragmentLen_le_ofMessage (h : ofMessage message maxFragmentLen = .ok e) :
    e.fragmentLen ≤ maxFragmentLen := by
  obtain ⟨-, len, hlen, rfl⟩ := ofMessage_eq_ok_iff.1 h
  obtain ⟨-, -, -, -, hle, -⟩ := firstLength?_eq_some_iff.1 hlen
  exact hle

theorem maxFragmentLen_pos (h : ofMessage message maxFragmentLen = .ok e) : 0 < maxFragmentLen :=
  Nat.lt_of_lt_of_le (sends_ofMessage h).fragmentLen_pos (fragmentLen_le_ofMessage h)

/-- There are as many fragments as if all had the greatest length. -/
theorem seqLen_ofMessage (h : ofMessage message maxFragmentLen = .ok e) :
    e.seqLen = fragmentCount message.length maxFragmentLen := by
  have hsends := sends_ofMessage h
  have hmessage : 0 < message.length := List.length_pos_iff.2 hsends.nonempty
  have hmax := maxFragmentLen_pos h
  obtain ⟨-, len, hlen, rfl⟩ := ofMessage_eq_ok_iff.1 h
  rw [fragmentLength?_eq hmessage hmax, Option.ite_none_right_eq_some, Option.some.injEq] at hlen
  obtain ⟨-, rfl⟩ := hlen
  rw [hsends.seqLen_eq]
  exact fragmentCount_fragmentCount_fragmentCount hmessage hmax

/-- No smaller number of fragments keeps them short enough. -/
theorem isLeast_seqLen_ofMessage (h : ofMessage message maxFragmentLen = .ok e) :
    IsLeast {count | 1 ≤ count ∧ fragmentCount message.length count ≤ maxFragmentLen} e.seqLen := by
  have hsends := sends_ofMessage h
  have hmax := maxFragmentLen_pos h
  refine ⟨⟨hsends.seqLen_pos, ?_⟩, ?_⟩
  · rw [seqLen_ofMessage h]
    exact fragmentCount_fragmentCount_le (List.length_pos_iff.2 hsends.nonempty) hmax
  · intro count hcount
    rw [seqLen_ofMessage h]
    exact (fragmentCount_le_comm hcount.1 hmax).1 hcount.2

namespace Sends

/-- The sum of fragments is one of pieces of the message. -/
theorem data_part_eq_sumOver_chunk (h : Sends message e) (seqNum : UInt32) :
    (e.part seqNum).data =
      Mix.sumOver (chunk message e.fragmentLen) e.fragmentLen (e.part seqNum).indexes := by
  rw [h.data_part, Mix.sumOver, Mix.sumOver, List.map_congr_left]
  intro i hi
  exact h.fragment_eq_chunk (h.lt_of_mem_indexes hi)

/-- Parts that are numbered as the fragments are carry the message. -/
theorem take_flatMap_data (h : Sends message e) {parts : List Part}
    (hparts : ∀ part ∈ parts, ∃ seqNum, part = e.part seqNum)
    (hnumbers : parts.map (·.seqNum.toNat) = List.range' 1 e.seqLen) :
    (parts.flatMap (·.data)).take message.length = message := by
  have hlength : parts.length = e.seqLen := by
    simpa using congrArg List.length hnumbers
  have hdata : parts.map (·.data) = (List.range e.seqLen).map e.fragment := by
    refine List.ext_getElem (by simp [hlength]) ?_
    intro k hk hk'
    have hseq : k < e.seqLen := by simpa using hk'
    have hpart : k < parts.length := hlength.symm ▸ hseq
    obtain ⟨seqNum, heq⟩ := hparts parts[k] (List.getElem_mem hpart)
    have hnum : seqNum.toNat = k + 1 := by
      have hget : parts[k].seqNum.toNat = 1 + k := by
        have hnum := congrArg (·[k]?) hnumbers
        simpa [hpart, hseq] using hnum
      rw [heq] at hget
      exact hget.trans (Nat.add_comm 1 k)
    rw [List.getElem_map, List.getElem_map, List.getElem_range, heq]
    exact h.data_part_of_lt hseq hnum
  rw [List.flatMap_def, hdata, h.take_flatten_fragments]

end Sends

/-- What is sent for a message. The fragments have a length `len` up to the greatest one, and they are as
few as the greatest one allows. The parts are numbered from one up to the greatest number, they agree on
the message, and each carries `len` bytes, the sum of the pieces of the message with its indexes.

The parts with the numbers of the fragments carry the message. If the fragments are not more than the
greatest number, these are the first parts that are sent; if they are more, not all of them have a part
with their number. -/
theorem emission (message : Bytes) (maxFragmentLen : Nat) (e : Encoder)
    (h : ofMessage message maxFragmentLen = .ok e) :
    ∃ len ≤ maxFragmentLen,
      e.seqLen = message.length ⌈/⌉ len ∧
      IsLeast {count | 1 ≤ count ∧ message.length ⌈/⌉ count ≤ maxFragmentLen} e.seqLen ∧
      (∀ k,
        let part := (e.after k).next.1
        part.seqNum.toNat = min (k + 1) 4294967295 ∧ part.seqLen = e.seqLen ∧
          part.messageLen = message.length ∧ part.checksum = Crc32.checksum message ∧
          part.data.length = len ∧
          part.data = Mix.sumOver (chunk message len) len part.indexes) ∧
      (∀ parts : List Part, (∀ part ∈ parts, ∃ k, part = (e.after k).next.1) →
        parts.map (·.seqNum.toNat) = List.range' 1 e.seqLen →
          (parts.flatMap (·.data)).take message.length = message) ∧
      (e.seqLen ≤ 4294967295 →
        ((List.range e.seqLen).flatMap fun k => (e.after k).next.1.data).take message.length =
          message) := by
  have hsends := sends_ofMessage h
  have hnumber (k : Nat) : (e.after (k + 1)).seqNum.toNat = min (k + 1) 4294967295 := by
    rw [e.toNat_seqNum_after, seqNum_ofMessage h, UInt32.toNat_zero, Nat.zero_add]
  have hmessage (parts : List Part) (hparts : ∀ part ∈ parts, ∃ k, part = (e.after k).next.1)
      (hnumbers : parts.map (·.seqNum.toNat) = List.range' 1 e.seqLen) :
      (parts.flatMap (·.data)).take message.length = message := by
    refine hsends.take_flatMap_data (fun part hpart => ?_) hnumbers
    obtain ⟨k, rfl⟩ := hparts part hpart
    exact ⟨_, e.fst_next_after k⟩
  refine ⟨e.fragmentLen, fragmentLen_le_ofMessage h, ?_, ?_, ?_, hmessage, ?_⟩
  · rw [hsends.seqLen_eq, fragmentCount_eq_ceilDiv]
  · simpa only [fragmentCount_eq_ceilDiv] using isLeast_seqLen_ofMessage h
  · intro k part
    have hpart : part = e.part (e.after (k + 1)).seqNum := e.fst_next_after k
    rw [hpart]
    exact ⟨hnumber k, rfl, hsends.messageLen, hsends.checksum, hsends.length_data_part _,
      hsends.data_part_eq_sumOver_chunk _⟩
  · intro hfew
    have hnumbers : ((List.range e.seqLen).map fun k => (e.after k).next.1).map (·.seqNum.toNat) =
        List.range' 1 e.seqLen := by
      rw [List.map_map, List.range'_eq_map_range]
      refine List.map_congr_left fun k hk => ?_
      have hk := List.mem_range.1 hk
      have hnum : (e.after (k + 1)).seqNum.toNat = 1 + k := by
        rw [hnumber]
        omega
      show (e.after k).next.1.seqNum.toNat = 1 + k
      rw [e.fst_next_after]
      exact hnum
    have hfirst := hmessage _ ?_ hnumbers
    · rwa [List.flatMap_map] at hfirst
    · intro part hpart
      obtain ⟨k, -, rfl⟩ := List.mem_map.1 hpart
      exact ⟨k, rfl⟩

/-- Twenty-one bytes in two fragments of eleven. -/
theorem emission_two_fragments :
    ∃ e, ofMessage (List.replicate 21 7) 12 = .ok e ∧ e.seqLen ≤ 4294967295 ∧
      ((List.range e.seqLen).flatMap fun k => (e.after k).next.1.data).take 21 =
        List.replicate 21 7 := by
  have hlen : fragmentLength? 21 minFragmentLen 12 = some 11 := by decide
  obtain ⟨e, he, hseqLen⟩ : ∃ e, ofMessage (List.replicate 21 7) 12 = .ok e ∧
      e.seqLen = fragmentCount 21 11 :=
    exists_ofMessage_eq_ok (by decide) hlen
  have hfew : e.seqLen ≤ 4294967295 := hseqLen.trans_le (by decide)
  obtain ⟨-, -, -, -, -, -, hmessage⟩ := emission (List.replicate 21 7) 12 e he
  exact ⟨e, he, hfew, hmessage hfew⟩

end Encoder

end UrReplay.Fountain
