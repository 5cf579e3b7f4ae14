import UrReplay.Proofs.Fountain.Emission
import UrReplay.Proofs.Resource.Parse
/-!
# UrReplay.Proofs.Resource.Emission

The texts that an encoder sends, one after another. A payload of one fragment is the same text every
time (`text_of_isSinglePart`). Any other is sent part by part (`exists_text_eq`): the parts are
numbered from one, and at the greatest number the encoder stays there.
-/

namespace UrReplay.Resource.Encoder

variable {e : Encoder}

/-- The encoder after it has sent `k` texts. -/
def after (e : Encoder) : (k : Nat) → Encoder
  | 0 => e
  | k + 1 => (e.after k).next.2

/-- The text that an encoder sends after `k` others. -/
def text (e : Encoder) (k : Nat) : Text := (e.after k).next.1

theorem text_of_isSinglePart (h : e.fountain.isSinglePart = true) (k : Nat) :
    e.text k = renderSingle e.type e.payload := by
  have hafter : e.after k = e := by
    induction k with
    | zero => rfl
    | succ k ih => rw [after, ih, next, if_pos h]
  rw [text, hafter, next, if_pos h]

theorem type_after (e : Encoder) (k : Nat) : (e.after k).type = e.type := by
  induction k with
  | zero => rfl
  | succ k ih =>
    rw [after, next]
    split <;> exact ih

/-- Every text is that of a payload or that of a part. -/
theorem text_eq_render (e : Encoder) (k : Nat) :
    (∃ payload, e.text k = renderSingle e.type payload) ∨
      ∃ part, e.text k = renderPart e.type part := by
  rw [text, next, type_after]
  split
  · exact .inl ⟨_, rfl⟩
  · exact .inr ⟨_, rfl⟩

theorem isWritten_of_mem_text (htype : isValidType e.type = true) (k : Nat) :
    ∀ c ∈ e.text k, isWritten c = true := by
  rcases text_eq_render e k with ⟨payload, h⟩ | ⟨part, h⟩
  · rw [h]
    exact isWritten_of_mem_renderSingle htype payload
  · rw [h]
    exact isWritten_of_mem_renderPart htype part

/-- Every text begins with the scheme, and something follows. -/
theorem exists_scheme_append_eq_text (e : Encoder) (k : Nat) :
    ∃ rest, rest ≠ [] ∧ scheme ++ rest = e.text k := by
  rcases text_eq_render e k with ⟨payload, h⟩ | ⟨part, h⟩
  · rw [h, renderSingle, List.append_assoc]
    exact ⟨_, by simp, rfl⟩
  · rw [h, renderPart]
    simp only [List.append_assoc]
    exact ⟨_, by simp, rfl⟩

/-- A payload of many fragments is sent as the parts of it are. -/
theorem after_of_not_isSinglePart (h : e.fountain.isSinglePart = false) (k : Nat) :
    e.after k = { e with fountain := e.fountain.after k } ∧
      (e.fountain.after k).isSinglePart = false := by
  have hmulti (k : Nat) : (e.fountain.after k).isSinglePart = false := by
    rw [e.fountain.after_eq]
    exact h
  refine ⟨?_, hmulti k⟩
  induction k with
  | zero => rfl
  | succ k ih =>
    rw [after, ih, next, hmulti k, if_neg Bool.false_ne_true]
    rfl

/-- Every text is that of a part, whose number is not zero. The texts of the first parts, which carry
one fragment each, come first. -/
theorem exists_text_eq (h : e.fountain.isSinglePart = false) (hstart : e.fountain.seqNum = 0)
    (k : Nat) :
    ∃ seqNum : UInt32, seqNum.toNat = min (k + 1) 4294967295 ∧
      e.text k = renderPart e.type (e.fountain.part seqNum) := by
  obtain ⟨hafter, hmulti⟩ := after_of_not_isSinglePart h k
  refine ⟨(e.fountain.after (k + 1)).seqNum, ?_, ?_⟩
  · rw [e.fountain.toNat_seqNum_after, hstart, UInt32.toNat_zero, Nat.zero_add]
  · rw [text, hafter, next, hmulti, if_neg Bool.false_ne_true, ← e.fountain.fst_next_after]

/-- A header can carry the part of every text. -/
theorem exists_carried_text (hsends : e.fountain.Sends e.payload)
    (hshort : e.payload.length < UInt32.size) (hmulti : e.fountain.isSinglePart = false)
    (hstart : e.fountain.seqNum = 0) (k : Nat) :
    ∃ seqNum, (e.fountain.part seqNum).Carried ∧
      e.text k = renderPart e.type (e.fountain.part seqNum) := by
  obtain ⟨seqNum, hnum, htext⟩ := exists_text_eq hmulti hstart k
  have hne : seqNum ≠ 0 := by
    rintro rfl
    have hpos : 0 < min (k + 1) 4294967295 := by omega
    exact hpos.ne hnum
  exact ⟨seqNum, hsends.carried_part hshort hne, htext⟩

/-- An encoder of a payload under a type, whatever it has sent. -/
theorem ofPayload_eq_ok {type : Text} {payload : Bytes} {maxFragmentLen : Nat}
    (h : ofPayload type payload maxFragmentLen = .ok e) :
    isValidType type = true ∧ e.type = type ∧ e.payload = payload ∧
      Fountain.Encoder.ofMessage payload maxFragmentLen = .ok e.fountain := by
  unfold ofPayload at h
  split at h
  · rename_i htype
    split at h
    · rename_i fountain hfountain
      obtain rfl := Except.ok.inj h
      exact ⟨htype, rfl, rfl, hfountain⟩
    · exact absurd h (by simp)
  · exact absurd h (by simp)

/-- A payload that can be cut has an encoder under every valid type. -/
theorem exists_ofPayload_eq_ok {type : Text} {payload : Bytes} {maxFragmentLen len : Nat}
    (htype : isValidType type = true) (hpayload : payload ≠ [])
    (hlen : Fountain.fragmentLength? payload.length Fountain.minFragmentLen maxFragmentLen =
      some len) :
    ∃ e, ofPayload type payload maxFragmentLen = .ok e ∧
      e.seqLen = Fountain.fragmentCount payload.length len := by
  obtain ⟨fountain, hfountain, hseqLen⟩ := Fountain.Encoder.exists_ofMessage_eq_ok hpayload hlen
  rw [ofPayload, if_pos htype, hfountain]
  exact ⟨_, rfl, hseqLen⟩

end UrReplay.Resource.Encoder
