import UrReplay.Proofs.Resource.Run
/-!
# UrReplay.Proofs.Resource.Transport

Texts carry parts: a decoder that is offered the texts of parts and a fountain decoder that is
offered the parts themselves run in step (`Carrying.receiveAll`). After the end the first refuses
every text and the second changes nothing, so they stay in step. What a user sees of the two is the
same throughout (`transport_transparent`).
-/

namespace UrReplay

namespace Resource.Decoder

open Fountain (Part)

variable {d : Decoder} {type : Text}

/-- A text carries a part under a type. -/
def Carries (type t : Text) (part : Part) : Prop :=
  part.Carried ∧ t.lower = renderPart type part

/-- A decoder that has received nothing but parts under one type. -/
structure Carrying (type : Text) (d : Decoder) : Prop where
  single : d.single = none
  type : d.type = some type ∨ d.type = none ∧ d.fountain.isComplete = false

namespace Carrying

theorem isComplete (h : Carrying type d) : d.isComplete = d.fountain.isComplete := by
  rw [Decoder.isComplete, h.single]
  rfl

theorem isSuccessful (h : Carrying type d) : d.isSuccessful = d.fountain.isSuccessful := by
  rw [Decoder.isSuccessful, h.single]
  rfl

theorem message? (h : Carrying type d) : d.message? = d.fountain.message? := by
  rw [Decoder.message?, h.single]
  rfl

theorem type_of_isComplete (h : Carrying type d) (hd : d.isComplete = true) :
    d.type = some type := by
  refine h.type.resolve_right ?_
  intro hnone
  rw [h.isComplete, hnone.2] at hd
  exact absurd hd (by decide)

theorem checkType (h : Carrying type d) : d.checkType type = .ok () := by
  rw [Decoder.checkType]
  rcases h.type with htype | ⟨htype, -⟩
  · rw [htype]
    exact if_pos rfl
  · rw [htype]

theorem type_withType (h : Carrying type d) (fountain : Fountain.Decoder) :
    ({ d with fountain }.withType type).type = some type := by
  show (d.type <|> some type) = some type
  rcases h.type with htype | ⟨htype, -⟩
  · rw [htype]
    rfl
  · rw [htype]
    rfl

theorem withType (h : Carrying type d) (fountain : Fountain.Decoder) :
    Carrying type ({ d with fountain }.withType type) :=
  ⟨h.single, Or.inl (h.type_withType fountain)⟩

/-- The text of a part does what the part does. -/
theorem receive (h : Carrying type d) (hd : d.isComplete = false) (htype : isValidType type = true)
    {part : Part} (hpart : part.Carried) {t : Text} (ht : t.lower = renderPart type part) :
    d.receive t = ((d.fountain.receive part).mapError .fountain).map
      fun fountain => { d with fountain }.withType type :=
  receive_renderPart hd htype h.checkType hpart ht

/-- Offered the texts of parts, a decoder runs in step with a fountain decoder that is offered the
parts. -/
theorem receiveAll (htype : isValidType type = true) {texts : List Text} {parts : List Part}
    (htexts : List.Forall₂ (Carries type) texts parts) (h : Carrying type d) :
    Carrying type (d.receiveAll texts) ∧
      (d.receiveAll texts).fountain = d.fountain.receiveAll parts := by
  induction htexts generalizing d with
  | nil => exact ⟨h, rfl⟩
  | @cons t part texts parts hcarries _ ih =>
    cases hd : d.isComplete with
    | true =>
        -- Both have ended, and nothing changes either of them.
        rw [receiveAll_of_isComplete hd,
          Fountain.Decoder.receiveAll_of_isComplete (h.isComplete ▸ hd)]
        exact ⟨h, rfl⟩
    | false =>
        rw [Decoder.receiveAll, h.receive hd htype hcarries.1 hcarries.2,
          Fountain.Decoder.receiveAll]
        cases d.fountain.receive part with
        | error refusal => exact ih h
        | ok fountain => exact ih (h.withType fountain)

end Carrying

theorem carrying_empty (type : Text) : Carrying type empty := ⟨rfl, Or.inr ⟨rfl, rfl⟩⟩

theorem carries_renderPart (htype : isValidType type = true) {part : Part} (hpart : part.Carried) :
    Carries type (renderPart type part) part :=
  ⟨hpart, lower_eq_self_of_isPlain (isPlain_of_mem_renderPart htype part)⟩

/-- Texts are a transparent transport. Whatever parts a header can carry, a decoder that is offered
their texts holds the state of a fountain decoder that is offered the parts, with the same end. Until
then it accepts the text of a part if the part is accepted, and refuses it for the same reason if
not. -/
theorem transport_transparent (htype : isValidType type = true) (parts : List Part)
    (hparts : ∀ part ∈ parts, part.Carried) :
    let d := empty.receiveAll (parts.map (renderPart type))
    let f := Fountain.Decoder.empty.receiveAll parts
    (d.fountain = f ∧ d.isComplete = f.isComplete ∧ d.isSuccessful = f.isSuccessful ∧
        d.message? = f.message?) ∧
      (f.isComplete = false → ∀ part : Part, part.Carried →
        (∀ f', f.receive part = .ok f' →
          ∃ d', d.receive (renderPart type part) = .ok d' ∧ d'.fountain = f') ∧
        ∀ refusal, f.receive part = .error refusal →
          d.receive (renderPart type part) = .error (.fountain refusal)) := by
  intro d f
  have hcarries : List.Forall₂ (Carries type) (parts.map (renderPart type)) parts :=
    List.forall₂_map_left_iff.2 (List.forall₂_same.2 fun part hpart =>
      carries_renderPart htype (hparts part hpart))
  have hstep := (carrying_empty type).receiveAll htype hcarries
  have hcarrying : Carrying type d := hstep.1
  have hfountain : d.fountain = f := hstep.2
  refine ⟨⟨hfountain, hfountain ▸ hcarrying.isComplete, hfountain ▸ hcarrying.isSuccessful,
    hfountain ▸ hcarrying.message?⟩, ?_⟩
  intro hrunning part hpart
  rw [← hfountain] at hrunning ⊢
  have hreceive := hcarrying.receive (hcarrying.isComplete.trans hrunning) htype hpart
    (carries_renderPart htype hpart).2
  refine ⟨fun f' hf' => ⟨{ d with fountain := f' }.withType type, ?_, rfl⟩, fun refusal hf' => ?_⟩
  · rw [hreceive, hf']
    rfl
  · rw [hreceive, hf']
    rfl

/-- A fragment of one transfer, and one of another that is refused. -/
theorem transport_transparent_foreign_part :
    let parts : List Part := [⟨1, 2, 2, 0, [0x2a]⟩, ⟨2, 2, 2, 7, [0x17]⟩]
    isValidType ['b', 'y', 't', 'e', 's'] = true ∧ (∀ part ∈ parts, part.Carried) ∧
      (empty.receiveAll (parts.map (renderPart ['b', 'y', 't', 'e', 's']))).fountain =
        Fountain.Decoder.empty.receiveAll parts := by
  intro parts
  have htype : isValidType ['b', 'y', 't', 'e', 's'] = true := by decide
  have hparts : ∀ part ∈ parts, part.Carried := by
    intro part hpart
    rcases List.mem_pair.1 hpart with rfl | rfl <;> constructor <;> decide
  exact ⟨htype, hparts, (transport_transparent htype parts hparts).1.1⟩

end Resource.Decoder

end UrReplay
