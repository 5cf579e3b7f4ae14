import UrReplay.Proofs.Bytewords.Image
import UrReplay.Proofs.Fountain.Header
import UrReplay.Proofs.Resource.Parse
/-!
# UrReplay.Proofs.Resource.Receive

What a decoder makes of a text that was written for a payload (`receive_renderSingle`) or a part
(`receive_renderPart`), in any letter case. The text of a part does what the part itself does to the
fountain decoder inside, so the texts carry parts faithfully.
-/

namespace UrReplay.Resource.Decoder

variable {d : Decoder} {type t : Text}

/-- After the end, every text is refused. -/
theorem receive_of_isComplete (h : d.isComplete = true) (t : Text) :
    d.receive t = .error .alreadyComplete := by
  rw [receive, if_pos h]

/-- A text is accepted if every step of taking it in succeeds. -/
theorem receive_eq_ok_iff {d' : Decoder} :
    d.receive t = .ok d' ↔
      d.isComplete = false ∧ ∃ resource body d'', parse t = .ok resource ∧
        d.checkType resource.type = .ok () ∧ Bytewords.decode .minimal resource.body = .ok body ∧
        d.receiveBody resource.position body = .ok d'' ∧ d''.withType resource.type = d' := by
  cases hd : d.isComplete with
  | true => simp [receive_of_isComplete hd]
  | false =>
      rw [receive, hd, if_neg Bool.false_ne_true]
      simp [Except.bind_eq_ok_iff, Except.mapError_eq_ok_iff, Unique.exists_iff]

/-- A resource with a type that agrees and a sound body is taken in. -/
theorem receive_of_parse {resource : Resource} {body : Bytes} (hd : d.isComplete = false)
    (hparse : parse t = .ok resource) (htype : d.checkType resource.type = .ok ())
    (hbody : Bytewords.decode .minimal resource.body = .ok body) :
    d.receive t = (d.receiveBody resource.position body).map (·.withType resource.type) := by
  rw [receive, hd, if_neg Bool.false_ne_true, hparse]
  simp only [Except.mapError, bind, Except.bind, htype, hbody]
  cases d.receiveBody resource.position body <;> rfl

/-- A resource with a type that does not agree is refused for it, whatever its body is. -/
theorem receive_of_checkType_eq_error {resource : Resource} {error : ReceiveError}
    (hd : d.isComplete = false) (hparse : parse t = .ok resource)
    (htype : d.checkType resource.type = .error error) : d.receive t = .error error := by
  rw [receive, hd, if_neg Bool.false_ne_true, hparse]
  simp only [Except.mapError, bind, Except.bind, htype]

/-- The text of a payload is accepted, and ends decoding with that payload. -/
theorem receive_renderSingle {payload : Bytes} (hd : d.isComplete = false)
    (htype : isValidType type = true) (hcheck : d.checkType type = .ok ()) (hpayload : payload ≠ [])
    (ht : t.lower = renderSingle type payload) :
    d.receive t = .ok ({ d with single := some payload }.withType type) := by
  rw [receive_of_parse hd (parse_renderSingle htype ht) hcheck
    (Bytewords.decode_encode hpayload)]
  rfl

/-! ### Parts -/

theorem toCbor_ne_nil (part : Fountain.Part) : part.toCbor ≠ [] := by
  simp [Fountain.Part.toCbor, Cbor.head]

/-- The body of the text of a part gives the part. -/
theorem decode_toCbor (part : Fountain.Part) :
    Bytewords.decode .minimal (Bytewords.encode .minimal part.toCbor) = .ok part.toCbor :=
  Bytewords.decode_encode (toCbor_ne_nil part)

/-- The text of a part is accepted if the part is, and does what the part does. -/
theorem receive_renderPart {part : Fountain.Part} (hd : d.isComplete = false)
    (htype : isValidType type = true) (hcheck : d.checkType type = .ok ()) (hpart : part.Carried)
    (ht : t.lower = renderPart type part) :
    d.receive t = ((d.fountain.receive part).mapError .fountain).map
      fun fountain => { d with fountain }.withType type := by
  have hparse := parse_renderPart htype hpart.seqNum hpart.seqLen_pos
    (hpart.seqLen_lt.trans (by decide)) ht
  have hcbor := hpart.ofCbor_toCbor []
  rw [List.append_nil] at hcbor
  rw [receive_of_parse hd hparse hcheck (decode_toCbor part)]
  simp only [receiveBody, receivePart, hcbor, Except.mapError, bind, Except.bind, ne_eq,
    not_true_eq_false, if_false]
  cases d.fountain.receive part <;> rfl

/-- Different parts have different texts. -/
theorem renderPart_injective {p q : Fountain.Part} (htype : isValidType type = true)
    (hp : p.Carried) (hq : q.Carried) (h : renderPart type p = renderPart type q) : p = q := by
  have hlower := lower_eq_self_of_isPlain (isPlain_of_mem_renderPart htype p)
  have hparse := parse_renderPart htype hp.seqNum hp.seqLen_pos
    (hp.seqLen_lt.trans (by decide)) hlower
  rw [parse_renderPart htype hq.seqNum hq.seqLen_pos (hq.seqLen_lt.trans (by decide))
    (hlower.trans h)] at hparse
  have hbody : Bytewords.encode .minimal q.toCbor = Bytewords.encode .minimal p.toCbor :=
    congrArg Resource.body (Except.ok.inj hparse)
  have hcbor := decode_toCbor q
  rw [hbody, decode_toCbor, Except.ok.injEq] at hcbor
  have hread := hq.ofCbor_toCbor []
  rw [← hcbor, hp.ofCbor_toCbor] at hread
  exact Except.ok.inj hread

end UrReplay.Resource.Decoder
