import UrReplay.Proofs.Fountain.Transmission
/-!
# UrReplay.Proofs.Fountain.CutError

When an encoder finds no length for the fragments of a message, and what that says.

The search is among numbers of fragments, and leaves out those with fewer than ten bytes of the message
for each fragment (`refused_iff`). That is not the same as fragments that are shorter than ten bytes: the
last one is filled up with zeros. So a message can be refused although there is a length within the limits
at which a decoder accepts it; this is so whenever the greatest length is within both limits
(`noFragmentLength_exact`). Nineteen bytes in fragments of ten are such a message
(`noFragmentLength_untrue`).
-/

namespace UrReplay.Fountain.Encoder

variable {message : Bytes} {e : Encoder} {maxFragmentLen len : Nat}

/-! ### What a decoder accepts -/

/-- A fresh decoder accepts all parts of an encoder or none. -/
theorem Sends.exists_receive_iff (h : Sends message e) (seqNum : UInt32) :
    (∃ d, Decoder.empty.receive (e.part seqNum) = .ok d) ↔ e.seqLen ≤ maxSeqLen := by
  constructor
  · intro haccepted
    obtain ⟨d, hreceive⟩ := haccepted
    obtain ⟨hflaw, -⟩ := Decoder.receive_eq_ok_iff.1 hreceive
    by_contra hmany
    rw [h.flaw?_part_eq, if_pos (Nat.lt_of_not_le hmany)] at hflaw
    exact absurd hflaw (Option.some_ne_none _)
  · intro hfew
    have hfresh : Decoder.empty.transfer = none := rfl
    obtain ⟨d, hreceive, -⟩ := h.receive_part hfew (Or.inl hfresh) seqNum
    exact ⟨d, hreceive⟩

/-- Split into fragments of a length, a message gives parts that a fresh decoder accepts. -/
def Fits (message : Bytes) (len : Nat) : Prop :=
  ∀ seqNum, ∃ d, Decoder.empty.receive ((ofLength message len).part seqNum) = .ok d

theorem fits_iff (hmessage : message ≠ []) (hpos : 0 < len) (hle : len ≤ message.length) :
    Fits message len ↔ fragmentCount message.length len ≤ maxSeqLen := by
  have hsends := sends_ofLength hmessage hpos hle
  have hseqLen : (ofLength message len).seqLen = fragmentCount message.length len := hsends.seqLen_eq
  simp only [Fits, hsends.exists_receive_iff, forall_const, hseqLen]

/-! ### What an encoder refuses -/

theorem refused_iff_fragmentLength? (hmessage : message ≠ []) :
    ofMessage message maxFragmentLen =
        .error (.noFragmentLength message.length maxFragmentLen) ↔
      fragmentLength? message.length minFragmentLen maxFragmentLen = none := by
  rw [ofMessage_of_ne_nil hmessage]
  cases fragmentLength? message.length minFragmentLen maxFragmentLen <;> simp

/-- A message is refused if neither a single fragment nor any number of fragments that leaves ten bytes of the
message to each keeps them within the greatest length. -/
theorem refused_iff (hmessage : message ≠ []) :
    ofMessage message maxFragmentLen =
        .error (.noFragmentLength message.length maxFragmentLen) ↔
      ∀ count, 1 ≤ count → (count = 1 ∨ count * minFragmentLen ≤ message.length) →
        maxFragmentLen < fragmentCount message.length count := by
  rw [refused_iff_fragmentLength? hmessage, fragmentLength?_eq_none_iff]
  refine forall₂_congr fun count hcount => ?_
  have hfloor : count ≤ message.length / max 1 minFragmentLen ↔
      count * minFragmentLen ≤ message.length := Nat.le_div_iff_mul_le (by decide)
  rw [← hfloor]
  have hone : count ≤ max 1 (message.length / max 1 minFragmentLen) ↔
      count = 1 ∨ count ≤ message.length / max 1 minFragmentLen := by omega
  rw [hone]

/-- A message that is refused does not fit in a single fragment. -/
theorem lt_length_of_refused (hmessage : message ≠ [])
    (h : ofMessage message maxFragmentLen =
      .error (.noFragmentLength message.length maxFragmentLen)) :
    maxFragmentLen < message.length := by
  have hsingle := (refused_iff hmessage).1 h 1 (Nat.le_refl 1) (Or.inl rfl)
  rwa [fragmentCount_one] at hsingle

/-- At every length up to the greatest one, a message that is refused leaves fewer than ten of its bytes to
each fragment. -/
theorem length_lt_of_refused (hmessage : message ≠ [])
    (h : ofMessage message maxFragmentLen =
      .error (.noFragmentLength message.length maxFragmentLen))
    (hpos : 0 < len) (hle : len ≤ maxFragmentLen) :
    message.length < fragmentCount message.length len * minFragmentLen := by
  have hlength := List.length_pos_iff.2 hmessage
  by_contra henough
  have hlong := (refused_iff hmessage).1 h _ (fragmentCount_pos hlength hpos)
    (Or.inr (Nat.le_of_not_lt henough))
  have hshort := fragmentCount_fragmentCount_le hlength hpos
  omega

/-- What a refusal says, and what it does not. It says that no number of fragments that leaves ten bytes of
the message to each, and not a single fragment either, keeps them within the greatest length. The lengths
from ten up to that one then leave fewer bytes to each fragment, but a decoder accepts them all the same if
there are not more than 65536 fragments. So there is a length that fits, unless the greatest one is below
ten or gives too many fragments itself. -/
theorem noFragmentLength_exact (message : Bytes) (maxFragmentLen : Nat) (hmessage : message ≠ []) :
    let refused := ofMessage message maxFragmentLen =
      .error (.noFragmentLength message.length maxFragmentLen)
    (refused ↔
      ∀ count, 1 ≤ count → (count = 1 ∨ count * minFragmentLen ≤ message.length) →
        maxFragmentLen < message.length ⌈/⌉ count) ∧
    (refused →
      (∀ len, minFragmentLen ≤ len → len ≤ maxFragmentLen →
        message.length < (message.length ⌈/⌉ len) * minFragmentLen ∧
          (Fits message len ↔ message.length ⌈/⌉ len ≤ 65536)) ∧
      ((∃ len, minFragmentLen ≤ len ∧ len ≤ maxFragmentLen ∧ Fits message len) ↔
        minFragmentLen ≤ maxFragmentLen ∧ message.length ⌈/⌉ maxFragmentLen ≤ 65536)) := by
  intro refused
  simp only [← fragmentCount_eq_ceilDiv]
  refine ⟨refused_iff hmessage, fun hrefused => ?_⟩
  have hmin : 0 < minFragmentLen := by decide
  have hfits {len : Nat} (hlen : minFragmentLen ≤ len) (hle : len ≤ maxFragmentLen) :
      Fits message len ↔ fragmentCount message.length len ≤ 65536 := by
    have hshort := lt_length_of_refused hmessage hrefused
    exact fits_iff hmessage (Nat.lt_of_lt_of_le hmin hlen) (by omega)
  refine ⟨fun len hlen hle => ?_, ?_, ?_⟩
  · exact ⟨length_lt_of_refused hmessage hrefused (Nat.lt_of_lt_of_le hmin hlen) hle, hfits hlen hle⟩
  · intro hexists
    obtain ⟨len, hlen, hle, hfit⟩ := hexists
    refine ⟨Nat.le_trans hlen hle, Nat.le_trans ?_ ((hfits hlen hle).1 hfit)⟩
    exact fragmentCount_anti (Nat.lt_of_lt_of_le hmin hlen) hle
  · intro hgreatest
    exact ⟨maxFragmentLen, hgreatest.1, Nat.le_refl _,
      (hfits hgreatest.1 (Nat.le_refl _)).2 hgreatest.2⟩

/-- Twenty-five bytes are refused, and would fit in three fragments of twelve. -/
theorem noFragmentLength_exact_twenty_five :
    let message : Bytes := List.replicate 25 7
    message ≠ [] ∧ ofMessage message 12 = .error (.noFragmentLength 25 12) ∧
      ∃ len, minFragmentLen ≤ len ∧ len ≤ 12 ∧ Fits message len := by
  intro message
  have hmessage : message ≠ [] := by decide
  have hrefused : ofMessage message 12 = .error (.noFragmentLength message.length 12) :=
    (refused_iff_fragmentLength? hmessage).2 (by decide)
  obtain ⟨-, hexact⟩ := noFragmentLength_exact message 12 hmessage
  obtain ⟨-, hfits⟩ := hexact hrefused
  exact ⟨hmessage, hrefused, hfits.2 (by decide)⟩

/-- Nineteen bytes are refused although they fit in two fragments of ten, the only length within the
limits. -/
theorem noFragmentLength_untrue :
    ¬∀ (message : Bytes) (maxFragmentLen : Nat), message ≠ [] →
        ofMessage message maxFragmentLen =
            .error (.noFragmentLength message.length maxFragmentLen) →
          ¬∃ len, minFragmentLen ≤ len ∧ len ≤ maxFragmentLen ∧ Fits message len := by
  intro hall
  let message : Bytes := List.replicate 19 0
  have hmessage : message ≠ [] := by decide
  have hrefused : ofMessage message 10 = .error (.noFragmentLength message.length 10) :=
    (refused_iff_fragmentLength? hmessage).2 (by decide)
  have hfits : Fits message 10 := (fits_iff hmessage (by decide) (by decide)).2 (by decide)
  exact hall message 10 hmessage hrefused ⟨10, by decide, by decide, hfits⟩

end UrReplay.Fountain.Encoder
