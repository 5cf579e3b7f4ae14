import UrReplay.Proofs.Resource.Receive
/-!
# UrReplay.Proofs.Resource.Whole

Texts that are whole in themselves. Such a text is accepted if and only if it is what its payload is
written as, up to letter case and the blanks around it (`receive_whole_iff`). No layer lets a second
spelling through: parsing gives the components of the text as they stand (`eq_of_parseLower`), and a
body is read only if it is the one that its payload is written as.
-/

namespace UrReplay.Resource

variable {t type : Text} {payload body : Bytes} {resource : Resource}

/-- A text without a place in a transfer consists of the scheme, a type and a body. -/
theorem eq_of_parseLower (h : parseLower t = .ok resource) (hwhole : resource.position = none) :
    isValidType resource.type = true ∧ t = scheme ++ (resource.type ++ '/' :: resource.body) := by
  cases parseLower_eq_ok_iff.1 h with
  | whole htype => exact ⟨isValidType_iff.2 htype, rfl⟩
  | part => exact absurd hwhole (Option.some_ne_none _)

theorem encodeSingle_eq_ok_iff :
    encodeSingle type payload = .ok t ↔ isValidType type = true ∧ renderSingle type payload = t := by
  unfold encodeSingle
  split <;> simp_all

namespace Decoder

/-- Taking in the body of a part changes the fountain decoder inside and nothing else. -/
theorem exists_fountain_of_receivePart {d d' : Decoder} {position : Position}
    (h : d.receivePart position payload = .ok d') : ∃ fountain, d' = { d with fountain } := by
  obtain ⟨part, -, h⟩ := Except.bind_eq_ok_iff.1 h
  split at h
  · exact absurd h (by simp)
  · obtain ⟨fountain, -, h⟩ := Except.bind_eq_ok_iff.1 h
    exact ⟨fountain, (Except.ok.inj h).symm⟩

/-- An accepted text leaves a payload of its own in the decoder, if it has no place in a transfer, and
does not change the payload that is there otherwise. -/
theorem single_receive {d d' : Decoder} (h : d.receive t = .ok d') :
    ∃ resource, parse t = .ok resource ∧ d'.type = (d.type <|> some resource.type) ∧
      (resource.position = none ∧
          (∃ payload, d'.single = some payload ∧
            Bytewords.decode .minimal resource.body = .ok payload) ∨
        resource.position ≠ none ∧ d'.single = d.single) := by
  obtain ⟨-, resource, body, d'', hparse, -, hbody, hd'', rfl, -⟩ := receive_eq_ok_iff.1 h
  refine ⟨resource, hparse, ?_⟩
  cases hposition : resource.position with
  | none =>
      rw [hposition] at hd''
      obtain rfl := Except.ok.inj hd''
      exact ⟨rfl, .inl ⟨rfl, body, rfl, hbody⟩⟩
  | some position =>
      rw [hposition] at hd''
      obtain ⟨fountain, rfl⟩ := exists_fountain_of_receivePart hd''
      exact ⟨rfl, .inr ⟨Option.some_ne_none _, rfl⟩⟩

/-- In a fresh decoder, there is no other payload. -/
theorem single_of_receive {d : Decoder} (h : empty.receive t = .ok d) :
    ∃ resource, parse t = .ok resource ∧ d.type = some resource.type ∧
      (resource.position = none ∧
          (∃ payload, d.single = some payload ∧
            Bytewords.decode .minimal resource.body = .ok payload) ∨
        resource.position ≠ none ∧ d.single = none) :=
  single_receive h

/-- What is accepted as a payload is what the payload is written as. -/
theorem lower_trim_of_single {d : Decoder} (h : empty.receive t = .ok d)
    (hsingle : d.single = some payload) (htype : d.type = some type) :
    payload ≠ [] ∧ isValidType type = true ∧ renderSingle type payload = t.trim.lower := by
  obtain ⟨resource, hparse, hresource, ⟨hwhole, payload', hpayload, hbody⟩ | ⟨-, hnone⟩⟩ :=
    single_of_receive h
  · obtain rfl := Option.some.inj (hpayload.symm.trans hsingle)
    obtain rfl := Option.some.inj (hresource.symm.trans htype)
    obtain ⟨hvalid, htext⟩ := eq_of_parseLower hparse hwhole
    obtain ⟨hne, hlower⟩ := Bytewords.decode_eq_ok_iff.1 hbody
    refine ⟨hne, hvalid, ?_⟩
    -- The text has no capital letters, so its body has none either.
    have htypeLower := lower_eq_self_of_isPlain fun c hc =>
      isPlain_of_isWritten (isWritten_of_isTypeChar (isTypeChar_of_mem hvalid hc))
    rw [← Text.lower_lower t.trim, htext, Text.lower_append, Text.lower_append, Text.lower_cons,
      htypeLower, hlower, renderSingle, List.append_assoc]
    rfl
  · rw [hnone] at hsingle
    exact absurd hsingle (by simp)

/-- There is one text for each payload and type. A text without a place in a transfer is accepted, and
leaves a payload and a type in the decoder, if and only if it is what they are written as, once the
blanks around it are cut off and its letters are made small. -/
theorem receive_whole_iff (t type : Text) (payload : Bytes) :
    ((∃ d, empty.receive t = .ok d ∧ d.isComplete = true ∧ d.single = some payload ∧
        d.type = some type) ↔
      payload ≠ [] ∧ encodeSingle type payload = .ok t.trim.lower) ∧
    ∀ d resource, empty.receive t = .ok d → parse t = .ok resource →
      (d.single.isSome = true ↔ resource.position = none) := by
  rw [encodeSingle_eq_ok_iff]
  refine ⟨⟨?_, ?_⟩, ?_⟩
  · rintro ⟨d, hreceive, -, hsingle, htype⟩
    exact lower_trim_of_single hreceive hsingle htype
  · rintro ⟨hpayload, hvalid, htext⟩
    have hplain := isPlain_of_mem_renderSingle hvalid payload
    have hparse : parse t = .ok ⟨type, none, Bytewords.encode .minimal payload⟩ := by
      rw [parse, ← htext, ← parse_of_isPlain hplain (lower_eq_self_of_isPlain hplain)]
      exact parse_renderSingle hvalid (lower_eq_self_of_isPlain hplain)
    exact ⟨_, receive_of_parse rfl hparse rfl (Bytewords.decode_encode hpayload), rfl, rfl, rfl⟩
  · intro d resource hreceive hparse
    obtain ⟨resource', hparse', -, ⟨hwhole, payload', hsingle, -⟩ | ⟨hpart, hnone⟩⟩ :=
      single_of_receive hreceive
    · obtain rfl := Except.ok.inj (hparse.symm.trans hparse')
      simp [hwhole, hsingle]
    · obtain rfl := Except.ok.inj (hparse.symm.trans hparse')
      simp [hpart, hnone]

end Decoder

end UrReplay.Resource
