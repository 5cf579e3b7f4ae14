import UrReplay.Proofs.Resource.Observables
import UrReplay.Proofs.Resource.Whole
import UrReplay.Proofs.Session.Delivery
/-!
# UrReplay.Proofs.Session.Threshold

How many parts a transfer takes at least: as many as it has fragments, whatever is in them
(`counted_once`).

The fountain decoder has no more fragments and mixes than it took parts in, and at the end it has all
fragments. In the decoder of resources nothing but a text that is whole in itself makes up for missing
parts, so without one it takes as many texts as the transfer has fragments (`Took.seqLen_le`). A session
counts the texts that this decoder accepts (`map_text_accepted`).
-/

namespace UrReplay

namespace Fountain.Decoder

/-- A transfer that has ended has received as many parts as it has fragments. -/
theorem seqLen_le_received {parts : List Part} (hparts : ∀ part ∈ parts, 1 ≤ part.messageLen)
    (h : (empty.receiveAll parts).isComplete = true) :
    ∃ seqLen, (empty.receiveAll parts).seqLen? = some seqLen ∧
      seqLen ≤ (empty.receiveAll parts).received :=
  ⟨_, (settled_receiveAll hparts).coherent.complete.1 h, size_recovered_le_received parts⟩

end Fountain.Decoder

namespace Resource

/-- Whether a text is a resource without a place in a transfer. -/
def IsWhole (t : Text) : Prop := ∃ resource, parse t = .ok resource ∧ resource.position = none

theorem not_isWhole_renderPart {type : Text} {part : Fountain.Part} (htype : isValidType type = true)
    (hnum : part.seqNum ≠ 0) (hpos : 0 < part.seqLen) (hlt : part.seqLen < UInt64.size) :
    ¬IsWhole (renderPart type part) := by
  rintro ⟨resource, hparse, hwhole⟩
  have hlower := lower_eq_self_of_isPlain (isPlain_of_mem_renderPart htype part)
  rw [parse_renderPart htype hnum hpos hlt hlower] at hparse
  obtain rfl := Except.ok.inj hparse
  exact absurd hwhole (Option.some_ne_none _)

namespace Decoder

variable {d : Decoder} {k : Nat}

/-- A payload of its own comes from a text without a place in a transfer. -/
theorem single_receiveAll {texts : List Text} (h : ∀ t ∈ empty.accepted texts, ¬IsWhole t) :
    (empty.receiveAll texts).single = none := by
  refine run_induction
    (motive := fun accepted d => (∀ t ∈ accepted, ¬IsWhole t) → d.single = none) texts
    (fun _ => rfl) ?_ h
  intro before d t d' hd hreceive hall
  obtain ⟨hbefore, ht⟩ := List.forall_mem_append.1 hall
  obtain ⟨resource, hparse, -, ⟨hwhole, -⟩ | ⟨-, hsingle⟩⟩ := single_receive hreceive
  · exact absurd ⟨resource, hparse, hwhole⟩ (ht t (List.mem_singleton_self t))
  · rw [hsingle]
    exact hd hbefore

/-- Decoding that has ended without a payload of its own has taken as many texts as the transfer has
fragments. -/
theorem Took.seqLen_le (h : Took k d) (hcomplete : d.isComplete = true) (hsingle : d.single = none) :
    ∃ seqLen, d.fountain.seqLen? = some seqLen ∧ seqLen ≤ k := by
  have hcount := h.count hsingle
  obtain ⟨parts, hparts, hfountain⟩ := h.parts
  rw [isComplete, hsingle, hfountain] at hcomplete
  rw [← hcount, hfountain]
  exact Fountain.Decoder.seqLen_le_received hparts hcomplete

end Decoder

end Resource

namespace Session

open Resource (Decoder IsWhole renderPart)
open Fountain (Part)

/-- A session accepts what its decoder accepts of all texts. -/
theorem map_text_accepted (d : Decoder) (fragments : List Fragment) :
    (accepted d fragments).map Fragment.text = d.accepted (fragments.map Fragment.text) := by
  induction d, fragments using feed_induction with
  | nil d => rfl
  | rejected d fragment rest e d' h ih =>
    obtain ⟨rfl, hreceive⟩ := (Decoder.atomic_receiveInPlace fragment.text d).eq_of_error h
    rw [accepted_cons_of_rejected h, ih, List.map_cons, Decoder.accepted, hreceive]
  | last d fragment rest d' h hd' =>
    have hreceive := (Decoder.atomic_receiveInPlace fragment.text d).eq_of_ok h
    have hrest := Decoder.accepted_of_isComplete hd' (rest.map Fragment.text)
    rw [accepted_cons_of_last h hd', List.map_singleton, List.map_cons, Decoder.accepted, hreceive]
    exact congrArg (fragment.text :: ·) hrest.symm
  | accepted d fragment rest d' h hd' ih =>
    have hreceive := (Decoder.atomic_receiveInPlace fragment.text d).eq_of_ok h
    rw [accepted_cons_of_accepted h hd', List.map_cons, ih, List.map_cons, Decoder.accepted, hreceive]

theorem snd_feed (fragments : List Fragment) :
    (feed (default : Decoder) fragments).2 =
      Decoder.empty.receiveAll (fragments.map Fragment.text) :=
  snd_feedFrom 0 Decoder.empty fragments

/-- What counts as consumed is what the decoder at the end has accepted. -/
theorem took_run (fragments : List Fragment) :
    Decoder.Took (run Decoder fragments).consumed (feed (default : Decoder) fragments).2 := by
  have hconsumed : (run Decoder fragments).consumed =
      (Decoder.empty.accepted (fragments.map Fragment.text)).length := by
    rw [← map_text_accepted, List.length_map]
    exact (fst_feedFrom 0 Decoder.empty fragments).trans (Nat.zero_add _)
  rw [hconsumed, snd_feed]
  exact Decoder.took_receiveAll _

/-- No fragment is counted twice. Whatever parts of messages that are not empty a fountain decoder was
offered, it has no more fragments and mixes than it has received parts, and received no more than it
accepted; so it does not come to an end before it has received as many as the transfer has fragments. Nor
does a session that accepts no text that is whole in itself before it has consumed that many. -/
theorem counted_once (parts : List Part) (hparts : ∀ part ∈ parts, 1 ≤ part.messageLen)
    (fragments : List Fragment) :
    let d := Fountain.Decoder.empty.receiveAll parts
    let session := run Decoder fragments
    let final := (feed (default : Decoder) fragments).2
    (d.recovered.size + d.held.length ≤ d.received ∧
        d.received ≤ (Fountain.Decoder.empty.accepted parts).length) ∧
      (d.isComplete = true → ∃ seqLen, d.seqLen? = some seqLen ∧ seqLen ≤ d.received) ∧
      (session.completed = true →
        (∀ fragment ∈ accepted (default : Decoder) fragments, ¬IsWhole fragment.text) →
        ∃ seqLen, final.fountain.seqLen? = some seqLen ∧ seqLen ≤ session.consumed) := by
  intro d session final
  refine ⟨⟨?_, Fountain.Decoder.received_receiveAll_le parts⟩,
    Fountain.Decoder.seqLen_le_received hparts, ?_⟩
  · exact (Nat.le_add_right _ _).trans (Fountain.Decoder.stored_receiveAll_le parts)
  · intro hcompleted hparted
    have hsingle : final.single = none := by
      show (feed (default : Decoder) fragments).2.single = none
      rw [snd_feed]
      refine Decoder.single_receiveAll ?_
      rw [← map_text_accepted]
      exact List.forall_mem_map.2 hparted
    exact (took_run fragments).seqLen_le hcompleted hsingle

/-- A message of two bytes in two parts. -/
theorem counted_once_two_parts :
    let parts : List Part := [⟨1, 2, 2, 0, [0x2a]⟩, ⟨2, 2, 2, 0, [0x17]⟩]
    let fragments := parts.map fun part => Fragment.mk (renderPart ['b', 'y', 't', 'e', 's'] part)
    let d := Fountain.Decoder.empty.receiveAll parts
    (∀ part ∈ parts, 1 ≤ part.messageLen) ∧
      (d.isComplete = true ∧ ∃ seqLen, d.seqLen? = some seqLen ∧ seqLen ≤ d.received) ∧
      ((run Decoder fragments).completed = true ∧
        (∀ fragment ∈ accepted (default : Decoder) fragments, ¬IsWhole fragment.text) ∧
        ∃ seqLen, (feed (default : Decoder) fragments).2.fountain.seqLen? = some seqLen ∧
          seqLen ≤ (run Decoder fragments).consumed) := by
  intro parts fragments d
  have hparts : ∀ part ∈ parts, 1 ≤ part.messageLen := by decide
  have hcomplete : d.isComplete = true := by decide +kernel
  have hcompleted : (run Decoder fragments).completed = true := by decide +kernel
  have hfields : ∀ part ∈ parts,
      part.seqNum ≠ 0 ∧ 0 < part.seqLen ∧ part.seqLen < UInt64.size := by decide +kernel
  have hparted : ∀ fragment ∈ accepted (default : Decoder) fragments, ¬IsWhole fragment.text := by
    intro fragment hfragment
    obtain ⟨part, hpart, rfl⟩ :=
      List.mem_map.1 ((accepted_sublist (default : Decoder) fragments).subset hfragment)
    obtain ⟨hnum, hpos, hlt⟩ := hfields part hpart
    exact Resource.not_isWhole_renderPart (by decide) hnum hpos hlt
  obtain ⟨-, hreceived, hconsumed⟩ := counted_once parts hparts fragments
  exact ⟨hparts, ⟨hcomplete, hreceived hcomplete⟩, hcompleted, hparted, hconsumed hcompleted hparted⟩

end Session

end UrReplay
