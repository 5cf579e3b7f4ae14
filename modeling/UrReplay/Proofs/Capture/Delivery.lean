import UrReplay.Proofs.Capture.Extent
import UrReplay.Proofs.Session.Delivery
/-!
# UrReplay.Proofs.Capture.Delivery

A capture of a transfer decodes to the payload, whatever the capture looks like (`delivers_payload`).

A capture `Captures` some of the texts that an encoder sends if each of its lines has one of them after
anything without a marker, or has no marker at all. The texts are the fragments in it, in order
(`ofText_of_captures`), because no text that is sent has a delimiter in it
(`isDelimiter_eq_false_of_emits`).
-/

namespace UrReplay.Capture

open Fragment (MarkerFree isDelimiter)
open Resource (scheme isValidType isWritten Encoder Decoder)

variable {e : Encoder} {line t : Text} {embedded : Option Text} {texts : List Text}

/-- What a line has of a transfer. -/
inductive Embeds (e : Encoder) : Text → Option Text → Prop
  | nothing {line : Text} : MarkerFree line → Embeds e line none
  /-- A text that is sent goes up to the end of the line or to a delimiter. -/
  | text {before text after : Text} : MarkerFree before → e.Emits text →
      (∀ c ∈ after.head?, isDelimiter c = true) → Embeds e (before ++ text ++ after) (some text)

/-- What a text has of a transfer, line by line. -/
inductive Captures (e : Encoder) : Text → List Text → Prop
  | last {line : Text} {embedded : Option Text} : Embeds e line embedded → '\n' ∉ line →
      Captures e line embedded.toList
  | line {line ending rest : Text} {embedded : Option Text} {texts : List Text} :
      Embeds e line embedded → '\n' ∉ line → ending = ['\n'] ∨ ending = ['\r', '\n'] →
      Captures e rest texts → Captures e (line ++ ending ++ rest) (embedded.toList ++ texts)

/-! ### Texts that are sent -/

theorem exists_lower_eq_text (htype : isValidType e.type = true) (h : e.Emits t) :
    ∃ k, t.lower = e.text k := by
  obtain ⟨k, h⟩ := h
  have hplain := fun c hc => Resource.isPlain_of_isWritten (e.isWritten_of_mem_text htype k c hc)
  exact ⟨k, h.trans (Resource.lower_eq_self_of_isPlain hplain)⟩

/-- There is a marker at the front of a text that is sent, and something behind it. -/
theorem marked_of_emits (htype : isValidType e.type = true) (h : e.Emits t) :
    Fragment.Marked t ∧ scheme.length < t.length := by
  obtain ⟨k, hlower⟩ := exists_lower_eq_text htype h
  obtain ⟨rest, hne, htext⟩ := e.exists_scheme_append_eq_text k
  have hlength : scheme.length + rest.length = t.length := by
    rw [← Text.length_lower t, hlower, ← htext, List.length_append]
  have hpos := List.length_pos_of_ne_nil hne
  exact ⟨Fragment.marked_iff_prefix.2 ⟨rest, htext.trans hlower.symm⟩, by omega⟩

/-- There is no delimiter in a text that is sent: none is a letter, and none is ever written. -/
theorem isDelimiter_eq_false_of_emits (htype : isValidType e.type = true) (h : e.Emits t) :
    ∀ c ∈ t, isDelimiter c = false := by
  intro c hc
  obtain ⟨k, hlower⟩ := exists_lower_eq_text htype h
  have hmem : c.toLower ∈ e.text k := hlower ▸ List.mem_map_of_mem hc
  have hwritten := e.isWritten_of_mem_text htype k _ hmem
  rw [Bool.eq_false_iff]
  intro hdelimiter
  simp only [isDelimiter, Bool.or_eq_true, beq_iff_eq] at hdelimiter
  rcases hdelimiter with ((rfl | rfl) | rfl) | rfl <;> exact absurd hwritten (by decide)

/-! ### Captures -/

theorem ofLine?_of_embeds (htype : isValidType e.type = true) (h : Embeds e line embedded) :
    Fragment.ofLine? line = embedded.map Fragment.mk := by
  cases h with
  | nothing hfree => exact Fragment.ofLine?_of_unmarked (Fragment.markerFree_iff.1 hfree)
  | text hbefore htext hafter =>
    obtain ⟨hmarked, hlong⟩ := marked_of_emits htype htext
    have hextent := Fragment.Extent.of_append hbefore hmarked (hmarked.lt_size_iff.2 hlong)
      (isDelimiter_eq_false_of_emits htype htext) hafter
    exact hextent.ofLine?_eq

theorem toList_map_mk (embedded : Option Text) :
    (embedded.map Fragment.mk).toList = embedded.toList.map Fragment.mk := by
  cases embedded <;> rfl

/-- The fragments in a capture are the texts of the transfer that it has, in order. -/
theorem ofText_of_captures (htype : isValidType e.type = true) (h : Captures e t texts) :
    Fragment.ofText t = texts.map Fragment.mk := by
  induction h with
  | last hembeds hline =>
    rw [Fragment.ofText_of_not_mem hline, ofLine?_of_embeds htype hembeds, toList_map_mk]
  | line hembeds hline hending _ ih =>
    rw [List.append_assoc, Fragment.ofText_append_ending hending, Fragment.ofText_of_not_mem hline,
      ofLine?_of_embeds htype hembeds, toList_map_mk, ih, List.map_append]

theorem emits_of_embeds (h : Embeds e line embedded) : ∀ s ∈ embedded.toList, e.Emits s := by
  intro s hs
  cases h with
  | nothing _ => exact absurd hs List.not_mem_nil
  | text _ htext _ =>
    obtain rfl := List.mem_singleton.1 hs
    exact htext

theorem emits_of_captures (h : Captures e t texts) : ∀ s ∈ texts, e.Emits s := by
  induction h with
  | last hembeds _ => exact emits_of_embeds hembeds
  | line hembeds _ _ _ ih =>
    intro s hs
    exact (List.mem_append.1 hs).elim (emits_of_embeds hembeds s) (ih s)

/-! ### Delivery -/

/-- A capture of a transfer decodes to its payload. The fragments in it are the texts that it has, in
order. A session with them succeeds if it comes to an end, and then observes the payload. It does come
to an end if each of the first `seqLen` texts is among them. -/
theorem delivers_payload {type : Text} {payload : Bytes} {maxFragmentLen : Nat}
    (he : Encoder.ofPayload type payload maxFragmentLen = .ok e)
    (hpayload : payload.length < 4294967296) (hfew : e.seqLen ≤ 65536) (h : Captures e t texts) :
    let session := Session.run Decoder (Fragment.ofText t)
    Fragment.ofText t = texts.map Fragment.mk ∧
      session.succeeded = session.completed ∧
      session.payload = (if session.completed then some payload else none) ∧
      ((∀ k < e.seqLen, ∃ s ∈ texts, s.lower = (e.text k).lower) → session.completed = true) := by
  intro session
  obtain ⟨hvalid, htype, -, -⟩ := Encoder.ofPayload_eq_ok he
  have hfragments := ofText_of_captures (htype ▸ hvalid) h
  have htexts : (Fragment.ofText t).map Fragment.text = texts := by
    rw [hfragments, List.map_map]
    exact List.map_id texts
  obtain ⟨hdelivers, hcomplete⟩ :=
    Decoder.delivers_of_ofPayload he hpayload hfew (emits_of_captures h)
  rw [← htexts] at hdelivers
  obtain ⟨hpayload, hsucceeded⟩ := Session.run_of_delivers hdelivers
  refine ⟨hfragments, hsucceeded, hpayload, ?_⟩
  intro hall
  show (Session.run Decoder (Fragment.ofText t)).completed = true
  rw [Session.completed_run, htexts]
  exact hcomplete hall

/-- Twenty bytes in two fragments: the second one quoted, a line of something else, and the first one in
capital letters with another marker behind it. -/
theorem delivers_payload_three_lines :
    ∃ e, Encoder.ofPayload ['b', 'y', 't', 'e', 's'] (List.replicate 20 7) 10 = .ok e ∧
      (List.replicate 20 (7 : UInt8)).length < 4294967296 ∧ e.seqLen ≤ 65536 ∧
      let capitals : Text := (e.text 0).map Char.toUpper
      let t := (['"'] ++ e.text 1 ++ ['"', ',']) ++ ['\r', '\n'] ++
        (['#', 'u', 'r'] ++ ['\n'] ++ ([' '] ++ capitals ++ [',', 'u', 'r', ':', '?']))
      Captures e t [e.text 1, capitals] ∧
        (Session.run Decoder (Fragment.ofText t)).payload = some (List.replicate 20 7) := by
  have hmap : (Encoder.ofPayload ['b', 'y', 't', 'e', 's'] (List.replicate 20 7) 10).map
      (fun e => (e.seqLen, Text.lower ((e.text 0).map Char.toUpper) == (e.text 0).lower)) =
        .ok (2, true) := by decide +kernel
  obtain ⟨e, he, hfacts⟩ := Except.map_eq_ok_iff.1 hmap
  obtain ⟨hseqLen, hlower⟩ := Prod.mk.inj hfacts
  have hpayload : (List.replicate 20 (7 : UInt8)).length < 4294967296 := by decide
  have hfew : e.seqLen ≤ 65536 := hseqLen.trans_le (by decide)
  refine ⟨e, he, hpayload, hfew, ?_⟩
  intro capitals t
  have hsecond : e.Emits (e.text 1) := ⟨1, rfl⟩
  have hcapitals : capitals.lower = (e.text 0).lower := beq_iff_eq.1 hlower
  have hfirst : e.Emits capitals := ⟨0, hcapitals⟩
  obtain ⟨hvalid, htype, -, -⟩ := Encoder.ofPayload_eq_ok he
  have hnewline {s : Text} (hs : e.Emits s) : '\n' ∉ s := fun hmem =>
    absurd (isDelimiter_eq_false_of_emits (htype ▸ hvalid) hs _ hmem) (by decide)
  have hquoted : '\n' ∉ ['"'] ++ e.text 1 ++ ['"', ','] := by simp [hnewline hsecond]
  have hplain : '\n' ∉ [' '] ++ capitals ++ [',', 'u', 'r', ':', '?'] := by simp [hnewline hfirst]
  have hcaptures : Captures e t [e.text 1, capitals] :=
    .line (.text (by decide) hsecond (by simp [isDelimiter])) hquoted (.inr rfl)
      (.line (.nothing (by decide)) (by decide) (.inl rfl)
        (.last (.text (by decide) hfirst (by simp [isDelimiter])) hplain))
  obtain ⟨-, -, hsession, hcomplete⟩ := delivers_payload he hpayload hfew hcaptures
  refine ⟨hcaptures, ?_⟩
  rw [hsession, if_pos (hcomplete ?_)]
  intro k hk
  rw [hseqLen] at hk
  have hk : k = 0 ∨ k = 1 := by omega
  rcases hk with rfl | rfl
  · exact ⟨capitals, by simp, hcapitals⟩
  · exact ⟨_, List.mem_cons_self, rfl⟩

end UrReplay.Capture
