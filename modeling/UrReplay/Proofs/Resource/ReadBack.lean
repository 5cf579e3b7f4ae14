import UrReplay.Proofs.Resource.Whole
/-!
# UrReplay.Proofs.Resource.ReadBack

Texts that are whole in themselves, from the payload to the text and back. A text is written for every
payload under a valid type, the empty one included. In any letter case it gives back the payload and the
type, unless the payload is empty: a body needs one byte besides its check value, so the text that is
written for the empty payload is refused (`receive_encodeSingle`).
-/

namespace UrReplay.Resource.Decoder

variable {d : Decoder} {type t written : Text} {payload : Bytes}

/-- A resource whose body cannot be read is refused for that, if its type agrees. -/
theorem receive_of_decode_eq_error {resource : Resource} {e : Bytewords.Error} (hd : d.isComplete = false)
    (hparse : parse t = .ok resource) (htype : d.checkType resource.type = .ok ())
    (hbody : Bytewords.decode .minimal resource.body = .error e) : d.receive t = .error (.body e) := by
  rw [receive, hd, if_neg Bool.false_ne_true, hparse]
  simp only [Except.mapError, bind, Except.bind, htype, hbody]

/-- The text that is written for the empty payload is refused. -/
theorem receive_renderSingle_nil (hd : d.isComplete = false) (htype : isValidType type = true)
    (hcheck : d.checkType type = .ok ()) (ht : t.lower = renderSingle type []) :
    d.receive t = .error (.body (.tooShort Bytewords.checksumSize)) :=
  receive_of_decode_eq_error hd (parse_renderSingle htype ht) hcheck Bytewords.decode_encode_nil

theorem isPlain_of_encodeSingle (h : encodeSingle type payload = .ok written) :
    ∀ c ∈ written, isPlain c = true := by
  obtain ⟨hvalid, rfl⟩ := encodeSingle_eq_ok_iff.1 h
  exact isPlain_of_mem_renderSingle hvalid payload

/-- What becomes of a text that is written for a payload, in any letter case. A fresh decoder accepts it,
and is complete and successful with the payload and the type, if the payload is not empty; it refuses the
text for the empty payload, which is written all the same, because a check value is all that the body
holds. -/
theorem receive_encodeSingle (type : Text) (payload : Bytes) :
    (isValidType type = true → ∃ written, encodeSingle type payload = .ok written) ∧
      ∀ written t : Text, encodeSingle type payload = .ok written → t.lower = written.lower →
        (payload ≠ [] → ∃ d, empty.receive t = .ok d ∧ d.isComplete = true ∧ d.isSuccessful = true ∧
          d.message? = some payload ∧ d.type = some type) ∧
        (payload = [] → empty.receive t = .error (.body (.tooShort 4))) := by
  refine ⟨fun hvalid => ⟨_, encodeSingle_eq_ok_iff.2 ⟨hvalid, rfl⟩⟩, fun written t hwritten ht => ?_⟩
  rw [lower_eq_self_of_isPlain (isPlain_of_encodeSingle hwritten)] at ht
  obtain ⟨hvalid, rfl⟩ := encodeSingle_eq_ok_iff.1 hwritten
  constructor
  · intro hpayload
    exact ⟨_, receive_renderSingle rfl hvalid rfl hpayload ht, rfl, rfl, rfl, rfl⟩
  · rintro rfl
    exact receive_renderSingle_nil rfl hvalid rfl ht

/-- The text for one byte is read back in capital letters, and the text for no byte is not read back. -/
theorem receive_encodeSingle_one_byte :
    let type : Text := ['b', 'y', 't', 'e', 's']
    let oneByte : Text := "ur:bytes/aetdaowslg".toList
    let capitals : Text := "UR:BYTES/AETDAOWSLG".toList
    let noByte : Text := "ur:bytes/aeaeaeae".toList
    (isValidType type = true ∧ encodeSingle type [0] = .ok oneByte ∧ encodeSingle type [] = .ok noByte) ∧
      (∃ d, empty.receive capitals = .ok d ∧ d.isComplete = true ∧ d.isSuccessful = true ∧
        d.message? = some [0] ∧ d.type = some type) ∧
      empty.receive noByte = .error (.body (.tooShort 4)) := by
  intro type oneByte capitals noByte
  have htype : isValidType type = true := by decide
  have hone : encodeSingle type [0] = .ok oneByte := by decide +kernel
  have hnone : encodeSingle type [] = .ok noByte := by decide +kernel
  have hcapitals : capitals.lower = oneByte.lower := by decide
  refine ⟨⟨htype, hone, hnone⟩, ?_, ?_⟩
  · exact ((receive_encodeSingle type [0]).2 oneByte capitals hone hcapitals).1 (by decide)
  · exact ((receive_encodeSingle type []).2 noByte noByte hnone rfl).2 rfl

/-- Not every text that is written for a payload can be read back: the one for the empty payload cannot. -/
theorem empty_not_read_back :
    ¬∀ (type : Text) (payload : Bytes) (written t : Text), encodeSingle type payload = .ok written →
        t.lower = written.lower →
          ∃ d, empty.receive t = .ok d ∧ d.isComplete = true ∧ d.isSuccessful = true ∧
            d.message? = some payload ∧ d.type = some type := by
  intro hall
  let type : Text := ['b', 'y', 't', 'e', 's']
  have htype : isValidType type = true := by decide
  have hwritten : encodeSingle type [] = .ok (renderSingle type []) := encodeSingle_eq_ok_iff.2 ⟨htype, rfl⟩
  have hlower : (renderSingle type []).lower = renderSingle type [] :=
    lower_eq_self_of_isPlain (isPlain_of_mem_renderSingle htype [])
  obtain ⟨d, hreceive, -⟩ := hall type [] _ _ hwritten rfl
  rw [receive_renderSingle_nil rfl htype rfl hlower] at hreceive
  exact absurd hreceive nofun

end UrReplay.Resource.Decoder
