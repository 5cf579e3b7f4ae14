import UrReplay.Fountain.Encoder
import UrReplay.Proofs.Fountain.Header
import UrReplay.Proofs.Fountain.Integrity
/-!
# UrReplay.Proofs.Fountain.Encoder

What an encoder sends.

The message is cut into fragments of one length, and put together they are the message again, filled
up with zeros (`flatten_cut`). Every part is the sum of the fragments that its indexes pick
(`Sends.data_part`), it is in order for the decoder (`Sends.flaw?_part`), and a header can carry it
(`Sends.carried_part`).

All of this holds for fragments of any length (`sends_ofLength`); which one is chosen for a message is a
matter of its own (`ofMessage_eq_ok_iff`).
-/

namespace UrReplay.Fountain

/-- The numbers of the first parts fit in 32 bits. -/
theorem toNat_succ_of_lt {k seqLen : Nat} (hk : k < seqLen) (hseq : seqLen ≤ maxSeqLen) :
    (UInt32.ofNat (k + 1)).toNat = k + 1 := by
  have hmax : maxSeqLen < 2 ^ 32 := by decide
  rw [UInt32.toNat_ofNat', Nat.mod_eq_of_lt (by omega)]

/-! ### Fragments -/

theorem length_of_mem_cut {len count : Nat} {message f : Bytes} (h : f ∈ cut len count message) :
    f.length = len := by
  induction count generalizing message with
  | zero => exact absurd h List.not_mem_nil
  | succ count ih =>
    rcases List.mem_cons.1 h with rfl | h
    · rw [List.rightpad, List.length_append, List.length_replicate, List.length_take]
      omega
    · exact ih h

/-- The fragments hold the message, and zeros after it. -/
theorem flatten_cut {len count : Nat} {message : Bytes} (h : message.length ≤ count * len) :
    (cut len count message).flatten = message ++ Bytes.zeros (count * len - message.length) := by
  induction count generalizing message with
  | zero =>
    have hnil : message = [] := List.length_eq_zero_iff.1 (by omega)
    rw [hnil, Nat.zero_mul]
    rfl
  | succ count ih =>
    rw [Nat.succ_mul] at h
    have hdrop : (message.drop len).length ≤ count * len := by
      rw [List.length_drop]
      omega
    rw [cut, List.flatten_cons, ih hdrop, List.rightpad, List.length_take, List.length_drop]
    rcases Nat.le_total len message.length with hlen | hlen
    · have hfull : len - min len message.length = 0 := by omega
      have hrest : count * len - (message.length - len) = (count + 1) * len - message.length := by
        rw [Nat.succ_mul]
        omega
      rw [hfull, List.replicate_zero, List.append_nil, ← List.append_assoc, List.take_append_drop,
        hrest]
    · -- The message ends in this fragment, so all later ones are zeros.
      have hmin : min len message.length = message.length := by omega
      have hend : message.length - len = 0 := by omega
      have hsum : len - message.length + count * len = (count + 1) * len - message.length := by
        rw [Nat.succ_mul]
        omega
      rw [List.take_of_length_le hlen, List.drop_of_length_le hlen, hmin, hend, List.nil_append,
        List.append_assoc, Nat.sub_zero, Bytes.zeros, Bytes.zeros, List.replicate_append_replicate,
        hsum]

/-- The bytes of a message from place `i * len` on, and zeros where the message has run out. -/
def chunk (message : Bytes) (len i : Nat) : Bytes :=
  ((message.drop (i * len)).take len).rightpad len 0

/-- Each fragment is cut off where the one before it ends. -/
theorem getElem?_cut {len count i : Nat} {message : Bytes} (hi : i < count) :
    (cut len count message)[i]? = some (chunk message len i) := by
  induction count generalizing message i with
  | zero => exact absurd hi (Nat.not_lt_zero i)
  | succ count ih =>
    cases i with
    | zero => simp [cut, chunk]
    | succ i =>
      rw [cut, List.getElem?_cons_succ, ih (by omega), chunk, chunk, List.drop_drop, Nat.succ_mul,
        Nat.add_comm len]

namespace Encoder

/-- The encoder that sends a message in fragments of a length. -/
def ofLength (message : Bytes) (len : Nat) : Encoder :=
  { fragments := (cut len (fragmentCount message.length len) message).toArray
    fragmentLen := len
    messageLen := message.length
    checksum := Crc32.checksum message }

theorem ofMessage_of_ne_nil {message : Bytes} (hmessage : message ≠ []) (maxFragmentLen : Nat) :
    ofMessage message maxFragmentLen =
      match fragmentLength? message.length minFragmentLen maxFragmentLen with
      | none => .error (.noFragmentLength message.length maxFragmentLen)
      | some len => .ok (ofLength message len) :=
  if_neg hmessage

theorem ofMessage_eq_ok_iff {message : Bytes} {maxFragmentLen : Nat} {e : Encoder} :
    ofMessage message maxFragmentLen = .ok e ↔
      message ≠ [] ∧ ∃ len, fragmentLength? message.length minFragmentLen maxFragmentLen = some len ∧
        ofLength message len = e := by
  by_cases hmessage : message = []
  · simp [ofMessage, hmessage]
  · rw [ofMessage_of_ne_nil hmessage]
    cases fragmentLength? message.length minFragmentLen maxFragmentLen <;> simp [hmessage]

/-- The fragment with an index. -/
def fragment (e : Encoder) (i : Nat) : Bytes := e.fragments.getD i []

/-- An encoder of a message, whatever it has sent. -/
structure Sends (message : Bytes) (e : Encoder) : Prop where
  nonempty : message ≠ []
  fragmentLen_pos : 0 < e.fragmentLen
  fragmentLen_le : e.fragmentLen ≤ message.length
  fragments : e.fragments =
    (cut e.fragmentLen (fragmentCount message.length e.fragmentLen) message).toArray
  messageLen : e.messageLen = message.length
  checksum : e.checksum = Crc32.checksum message

theorem sends_ofLength {message : Bytes} {len : Nat} (hmessage : message ≠ []) (hpos : 0 < len)
    (hle : len ≤ message.length) : Sends message (ofLength message len) :=
  ⟨hmessage, hpos, hle, rfl, rfl, rfl⟩

theorem sends_ofMessage {message : Bytes} {maxFragmentLen : Nat} {e : Encoder}
    (h : ofMessage message maxFragmentLen = .ok e) : Sends message e := by
  obtain ⟨hmessage, len, hlen, rfl⟩ := ofMessage_eq_ok_iff.1 h
  obtain ⟨count, hcount, -, rfl, -, -⟩ := firstLength?_eq_some_iff.1 hlen
  exact sends_ofLength hmessage (fragmentCount_pos (List.length_pos_iff.2 hmessage) hcount)
    (fragmentCount_le_self hcount)

/-- A message that can be cut has an encoder. -/
theorem exists_ofMessage_eq_ok {message : Bytes} {maxFragmentLen len : Nat} (hmessage : message ≠ [])
    (hlen : fragmentLength? message.length minFragmentLen maxFragmentLen = some len) :
    ∃ e, ofMessage message maxFragmentLen = .ok e ∧
      e.seqLen = fragmentCount message.length len := by
  refine ⟨_, ofMessage_eq_ok_iff.2 ⟨hmessage, len, hlen, rfl⟩, ?_⟩
  rw [seqLen, ofLength, List.size_toArray, length_cut]

namespace Sends

variable {message : Bytes} {e : Encoder}

theorem seqLen_eq (h : Sends message e) :
    e.seqLen = fragmentCount message.length e.fragmentLen := by
  rw [seqLen, h.fragments, List.size_toArray, length_cut]

theorem seqLen_pos (h : Sends message e) : 0 < e.seqLen := by
  rw [h.seqLen_eq]
  exact fragmentCount_pos (List.length_pos_iff.2 h.nonempty) h.fragmentLen_pos

/-- No fragment is empty, so there are no more of them than bytes. -/
theorem seqLen_le (h : Sends message e) : e.seqLen ≤ message.length := by
  rw [h.seqLen_eq]
  exact fragmentCount_le_self h.fragmentLen_pos

theorem length_fragment (h : Sends message e) {i : Nat} (hi : i < e.seqLen) :
    (e.fragment i).length = e.fragmentLen := by
  have hmem : e.fragment i ∈ e.fragments.toList := by
    rw [fragment, Array.getD_eq_getD_getElem?, Array.getElem?_eq_getElem hi, Option.getD_some,
      Array.mem_toList_iff]
    exact Array.getElem_mem hi
  rw [h.fragments] at hmem
  exact length_of_mem_cut hmem

/-- The fragments are the message, one piece after another. -/
theorem fragment_eq_chunk (h : Sends message e) {i : Nat} (hi : i < e.seqLen) :
    e.fragment i = chunk message e.fragmentLen i := by
  have hget : e.fragments[i]? = some (chunk message e.fragmentLen i) := by
    rw [h.fragments, List.getElem?_toArray, getElem?_cut (h.seqLen_eq ▸ hi)]
  rw [fragment, Array.getD_eq_getD_getElem?, hget, Option.getD_some]

/-- The fragments in order are the message and zeros after it. -/
theorem take_flatten_fragments (h : Sends message e) :
    ((List.range e.seqLen).map e.fragment).flatten.take message.length = message := by
  have hlist : (List.range e.seqLen).map e.fragment = e.fragments.toList := by
    refine List.ext_getElem (by simp [seqLen]) ?_
    intro i hi hi'
    have hsize : i < e.fragments.size := by simpa using hi'
    simp [fragment, Array.getD_eq_getD_getElem?, hsize]
  have hle := le_fragmentCount_mul message.length h.fragmentLen_pos
  rw [hlist, h.fragments, List.toList_toArray, flatten_cut hle, List.take_left]

/-- Fragments that exist are found and added up. -/
theorem mix_eq_xorAll (h : Sends message e) {indexes : List Nat}
    (hindexes : ∀ i ∈ indexes, i < e.seqLen) :
    e.mix indexes = Bytes.xorAll e.fragmentLen (indexes.map e.fragment) := by
  have hfound : indexes.filterMap (e.fragments[·]?) = indexes.map e.fragment := by
    rw [← List.filterMap_eq_map]
    refine List.filterMap_congr ?_
    intro i hi
    have hsize : i < e.fragments.size := hindexes i hi
    simp [fragment, Array.getD_eq_getD_getElem?, hsize]
  have hlength : ∀ a ∈ indexes.map e.fragment, a.length = e.fragmentLen :=
    List.forall_mem_map.2 fun i hi => h.length_fragment (hindexes i hi)
  have hzeros : List.replicate e.fragmentLen 0 = Bytes.zeros e.fragmentLen := rfl
  rw [Encoder.mix, hfound, hzeros, Bytes.foldl_xorInto_zeros hlength]

/-- A part is the sum of the fragments with its indexes. -/
theorem data_part (h : Sends message e) (seqNum : UInt32) :
    (e.part seqNum).data = Mix.sumOver e.fragment e.fragmentLen (e.part seqNum).indexes := by
  -- The encoder adds in the order of the draw, and the sum goes through the set in order.
  obtain ⟨chosen, hchosen, hchoice, -, hperm⟩ := (e.part seqNum).exists_indexes h.seqLen_pos
  have hdata : (e.part seqNum).data = e.mix chosen := by
    show e.mix ((chooseFragments seqNum e.seqLen e.checksum).getD []) = _
    rw [show chooseFragments seqNum e.seqLen e.checksum = some chosen from hchosen, Option.getD_some]
  rw [hdata, h.mix_eq_xorAll hchoice.lt, Mix.sumOver, Bytes.xorAll_perm (hperm.map e.fragment)]

theorem lt_of_mem_indexes (h : Sends message e) {seqNum : UInt32} {i : Nat}
    (hi : i ∈ (e.part seqNum).indexes) : i < e.seqLen := by
  obtain ⟨chosen, -, hchoice, hmem, -⟩ := (e.part seqNum).exists_indexes h.seqLen_pos
  exact hchoice.lt i ((hmem i).1 hi)

theorem length_data_part (h : Sends message e) (seqNum : UInt32) :
    (e.part seqNum).data.length = e.fragmentLen := by
  rw [h.data_part]
  exact Mix.length_sumOver fun i hi =>
    h.length_fragment (h.lt_of_mem_indexes (IndexSet.mem_toFinset.1 hi))

/-- What a part carries is what the fragments say. -/
theorem encodes_part (h : Sends message e) (seqNum : UInt32) :
    (e.part seqNum).mix.Encodes e.fragment e.fragmentLen := by
  refine ⟨?_, h.data_part seqNum⟩
  intro i hi
  exact h.length_fragment (h.lt_of_mem_indexes (Part.mem_support_mix.1 hi))

/-- Nothing is wrong with any part, unless there are too many fragments. -/
theorem flaw?_part_eq (h : Sends message e) (seqNum : UInt32) :
    (e.part seqNum).flaw? =
      if maxSeqLen < e.seqLen then some (.tooManyFragments e.seqLen) else none := by
  have hlength := h.length_data_part seqNum
  have hdata : (e.part seqNum).data ≠ [] := by
    rw [← List.length_pos_iff, hlength]
    exact h.fragmentLen_pos
  have hseqLen : (e.part seqNum).seqLen =
      fragmentCount (e.part seqNum).messageLen (e.part seqNum).data.length := by
    show e.seqLen = fragmentCount e.messageLen _
    rw [hlength, h.messageLen, h.seqLen_eq]
  rw [Part.flaw?, if_neg hdata, if_neg (not_not.2 hseqLen)]
  rfl

theorem flaw?_part (h : Sends message e) (hseq : e.seqLen ≤ maxSeqLen) (seqNum : UInt32) :
    (e.part seqNum).flaw? = none := by
  rw [h.flaw?_part_eq, if_neg (Nat.not_lt_of_le hseq)]

/-- A header can carry every part but the one with number zero. -/
theorem carried_part (h : Sends message e) (hmessage : message.length < UInt32.size)
    {seqNum : UInt32} (hnum : seqNum ≠ 0) : (e.part seqNum).Carried := by
  have hlength := h.length_data_part seqNum
  have hle := h.fragmentLen_le
  have hpos := h.fragmentLen_pos
  have hmessageLen : (e.part seqNum).messageLen = message.length := h.messageLen
  refine ⟨hnum, h.seqLen_pos, lt_of_le_of_lt h.seqLen_le hmessage, ?_, ?_, ?_, ?_⟩
  · rw [hmessageLen]
    exact List.length_pos_iff.2 h.nonempty
  · rwa [hmessageLen]
  · rw [← List.length_pos_iff, hlength]
    exact hpos
  · rw [hlength]
    exact (hle.trans_lt hmessage).trans (by decide)

/-- The part with the number of a fragment carries that fragment alone. -/
theorem toFinset_indexes_part {k : Nat} (hk : k < e.seqLen)
    {seqNum : UInt32} (hnum : seqNum.toNat = k + 1) :
    (e.part seqNum).indexes.toFinset = {k} := by
  have hchosen : chooseFragments (e.part seqNum).seqNum (e.part seqNum).seqLen
      (e.part seqNum).checksum = some [k] := chooseFragments_eq_singleton hk hnum e.checksum
  ext i
  rw [IndexSet.mem_toFinset, Part.indexes_of_chooseFragments hchosen, IndexSet.mem_ofList,
    List.mem_singleton, Finset.mem_singleton]

/-- The part with the number of a fragment is that fragment. -/
theorem data_part_of_lt (h : Sends message e) {k : Nat} (hk : k < e.seqLen)
    {seqNum : UInt32} (hnum : seqNum.toNat = k + 1) : (e.part seqNum).data = e.fragment k := by
  have hk' : ∀ i ∈ [k], i < e.seqLen := List.forall_mem_singleton.2 hk
  show e.mix ((chooseFragments seqNum e.seqLen e.checksum).getD []) = _
  rw [chooseFragments_eq_singleton hk hnum, Option.getD_some, h.mix_eq_xorAll hk']
  exact Bytes.xorAll_singleton (h.length_fragment hk)

end Sends

end Encoder

end UrReplay.Fountain
