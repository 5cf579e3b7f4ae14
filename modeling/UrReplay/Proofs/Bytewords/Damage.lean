import UrReplay.Proofs.Bytewords.Image
import UrReplay.Proofs.Crc32
/-!
# UrReplay.Proofs.Bytewords.Damage

Damage to a body that leaves it a body of words is noticed (`decode_damaged`): wrong words within a
window of four in the payload change its check value (`checksum_ne_of_burst`), and wrong words in
the check value are not what the payload has.
-/

namespace UrReplay.Bytewords

variable {payload payload' check' : Bytes}

/-- The bytes of the check value of a payload. -/
def checkBytes (payload : Bytes) : Bytes :=
  Bytes.bigEndian checksumSize (Crc32.checksum payload).toNat

theorem length_checkBytes (payload : Bytes) : (checkBytes payload).length = checksumSize :=
  Bytes.length_bigEndian _ _

/-- What the words of a body may stand for after damage: `payload'` and `check'` in place of a payload
and its check value. Either words are replaced within a window of at most four words of the payload,
or some words of the check value are, and the rest is left alone. -/
inductive Damaged (payload : Bytes) : Bytes → Bytes → Prop
  | window {before old new after : Bytes} (h : payload = before ++ old ++ after)
      (hshort : old.length ≤ 4) (hlength : new.length = old.length) (hne : new ≠ old) :
      Damaged payload (before ++ new ++ after) (checkBytes payload)
  | check {check' : Bytes} (hlength : check'.length = checksumSize)
      (hne : check' ≠ checkBytes payload) : Damaged payload payload check'

theorem Damaged.length_check (h : Damaged payload payload' check') :
    check'.length = checksumSize := by
  cases h with
  | window _ _ _ _ => exact length_checkBytes payload
  | check hlength _ => exact hlength

theorem Damaged.payload_ne_nil (h : Damaged payload payload' check') (hpayload : payload ≠ []) :
    payload' ≠ [] := by
  cases h with
  | @window before old new after h hshort hlength hne =>
      have hnew : new ≠ [] := fun hnil => by
        rw [hnil, List.length_nil] at hlength
        exact hne (hnil.trans (List.eq_nil_of_length_eq_zero hlength.symm).symm)
      simp [hnew]
  | check _ _ => exact hpayload

/-- After damage, the payload does not have the check value that it comes with. -/
theorem Damaged.carried_ne (h : Damaged payload payload' check') :
    UInt32.ofNat (Bytes.value check') ≠ Crc32.checksum payload' := by
  cases h with
  | window h hshort hlength hne =>
      rw [(ofNat_value_eq_iff (length_checkBytes payload)).2 rfl, h]
      exact (Crc32.checksum_ne_of_burst hlength hshort hne).symm
  | check hlength hne =>
      intro hsame
      exact hne ((ofNat_value_eq_iff hlength).1 hsame)

/-- Every short burst of wrong words is noticed. If words of a body are replaced by other words of the
alphabet, within a window of at most four words of the payload or anywhere in the check value, then
the body is refused for its check value. The error names the value that the words of the check value
carry, and the one of the bytes that the words of the payload carry. -/
theorem decode_damaged {style : Style} {body : Text} (hpayload : payload ≠ [])
    (hdamaged : Damaged payload payload' check')
    (hbody : body.lower = spell style (payload' ++ check')) :
    encode style payload = spell style (payload ++ checkBytes payload) ∧
      decode style body = .error
        (.checksum (UInt32.ofNat (Bytes.value check')) (Crc32.checksum payload')) := by
  have hpayload' := hdamaged.payload_ne_nil hpayload
  have hne : payload' ++ check' ≠ [] := List.append_ne_nil_of_left_ne_nil hpayload' _
  have hread : read style body.lower = .ok (payload' ++ check') := (read_eq_ok_iff hne).2 hbody
  refine ⟨encode_eq_spell style payload, ?_⟩
  rw [decode, hread]
  show unchecked (payload' ++ check') = _
  rw [unchecked_append hpayload' hdamaged.length_check, if_neg hdamaged.carried_ne]

/-- The word of a payload of one byte is a wrong one. -/
theorem decode_damaged_one_word :
    let body : Text := "acid-tied-also-webs-lung".toList
    let check : Bytes := [210, 2, 239, 141]
    (([0] : Bytes) ≠ [] ∧ Damaged [0] [1] check ∧ body.lower = spell .uri ([1] ++ check)) ∧
      decode .uri body = .error
        (.checksum (UInt32.ofNat (Bytes.value check)) (Crc32.checksum [1])) := by
  intro body check
  have hpayload : ([0] : Bytes) ≠ [] := by decide
  have hcheck : check = checkBytes [0] := by decide +kernel
  have hdamaged : Damaged [0] [1] check := by
    rw [hcheck]
    exact @Damaged.window [0] [] [0] [1] [] rfl (by decide) rfl (by decide)
  have hbody : body.lower = spell .uri ([1] ++ check) := by decide +kernel
  exact ⟨⟨hpayload, hdamaged, hbody⟩, (decode_damaged hpayload hdamaged hbody).2⟩

end UrReplay.Bytewords
