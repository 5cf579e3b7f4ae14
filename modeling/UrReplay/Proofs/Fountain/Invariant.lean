import UrReplay.Proofs.Fountain.Run
/-!
# UrReplay.Proofs.Fountain.Invariant

The representation invariant of a decoder.

* `Sound` holds at every moment of a transfer: what is stored are mixes of fragments of the transfer,
  and the held ones are distinct, of two or more fragments, and not too many.
* `Running` adds what holds until the transfer ends, also inside the reduction loop: a fragment is
  missing, and no held mix contains a recovered one. `Finished` adds what holds after it.
* Every step leads from `Running` to one of the two (`Running.processed`), so between calls a decoder
  is fresh, running with nothing queued, or finished (`settled_receiveAll`).
* `Coherent` says what this means for a user of a decoder, without the phases: it is what holds after
  any sequence of parts (`coherent_receiveAll`).
-/

namespace UrReplay.Fountain.Decoder

open Mix (Within)

/-! ### Taking out what is recovered -/

/-- Taking known fragments out of a mix loses nothing but known fragments, and all of them unless it
comes down to one fragment. -/
theorem foldl_reduceBy_fragments {known : Finset Nat} {fragments : List Mix}
    (hfragments : ∀ f ∈ fragments, ∃ i ∈ known, ∃ data, f = .ofFragment i data) (m : Mix) :
    m.support \ (fragments.foldl Mix.reduceBy m).support ⊆ known ∧
      ((fragments.foldl Mix.reduceBy m).isSingle = true ∨
        ∀ f ∈ fragments, Disjoint (fragments.foldl Mix.reduceBy m).support f.support) := by
  induction fragments generalizing m with
  | nil => exact ⟨by simp, Or.inr (by simp)⟩
  | cons f fragments ih =>
    obtain ⟨⟨i, hi, data, rfl⟩, hrest⟩ := List.forall_mem_cons.1 hfragments
    obtain ⟨hknown, hall⟩ := ih hrest (m.reduceBy (.ofFragment i data))
    have hsub := Mix.support_foldl_reduceBy_subset fragments (m.reduceBy (.ofFragment i data))
    rw [List.foldl_cons]
    cases hsingle : m.isSingle with
    | true =>
        -- Nothing can be taken out of a single fragment.
        have heq := Mix.support_foldl_reduceBy_of_isSingle hsingle (.ofFragment i data :: fragments)
        rw [List.foldl_cons] at heq
        refine ⟨?_, Or.inl (Mix.isSingle_iff.2 ?_)⟩
        · rw [heq, Finset.sdiff_self]
          exact Finset.empty_subset _
        · rw [heq, Mix.isSingle_iff.1 hsingle]
    | false =>
        have hreduced := Mix.support_reduceBy_ofFragment (Mix.isSingle_eq_false_iff.1 hsingle) i data
        rw [hreduced] at hsub hknown
        refine ⟨?_, hall.imp id ?_⟩
        · intro j hj
          obtain ⟨hjm, hjr⟩ := Finset.mem_sdiff.1 hj
          by_cases hji : j = i
          · rw [hji]
            exact hi
          · exact hknown (Finset.mem_sdiff.2 ⟨Finset.mem_sdiff.2 ⟨hjm, by simpa using hji⟩, hjr⟩)
        · intro hall g hg
          rcases List.mem_cons.1 hg with rfl | hg
          · rw [Mix.support_ofFragment]
            exact Finset.disjoint_of_subset_left hsub Finset.sdiff_disjoint
          · exact hall g hg

theorem withoutRecovered_spec (d : Decoder) (m : Mix) :
    (d.withoutRecovered m).support ⊆ m.support ∧
      m.support \ (d.withoutRecovered m).support ⊆ d.known ∧
      ((d.withoutRecovered m).isSingle = true ∨
        Disjoint (d.withoutRecovered m).support d.known) := by
  have hfragments : ∀ f ∈ d.fragmentsIn m, ∃ i ∈ d.known, ∃ data, f = .ofFragment i data := by
    intro f hf
    obtain ⟨i, -, data, hdata, rfl⟩ := mem_fragmentsIn.1 hf
    exact ⟨i, mem_known_iff_exists.2 ⟨data, hdata⟩, data, rfl⟩
  rw [withoutRecovered_eq]
  have hsub := Mix.support_foldl_reduceBy_subset (d.fragmentsIn m) m
  obtain ⟨hknown, hall⟩ := foldl_reduceBy_fragments hfragments m
  refine ⟨hsub, hknown, hall.imp id ?_⟩
  intro hall
  rw [Finset.disjoint_left]
  intro i hi hid
  obtain ⟨data, hdata⟩ := mem_known_iff_exists.1 hid
  have hmem := mem_fragmentsIn.2 ⟨i, hsub hi, data, hdata, rfl⟩
  have hdisjoint := hall _ hmem
  rw [Mix.support_ofFragment, Finset.disjoint_singleton_right] at hdisjoint
  exact hdisjoint hi

/-- A reduced mix that has not come down to one fragment contains no recovered one. -/
theorem disjoint_reduced (d : Decoder) {m : Mix} (hmixed : (d.reduced m).isSingle = false) :
    Disjoint (d.reduced m).support d.known := by
  obtain ⟨-, -, hall⟩ := withoutRecovered_spec d m
  have hsub := Mix.support_foldl_reduceBy_subset d.held (d.withoutRecovered m)
  refine Finset.disjoint_of_subset_left hsub (hall.resolve_left ?_)
  intro hsingle
  have heq := Mix.support_foldl_reduceBy_of_isSingle hsingle d.held
  rw [Mix.isSingle_eq_false_iff] at hmixed
  refine hmixed ?_
  rw [reduced, withoutHeld, heq, Mix.isSingle_iff.1 hsingle]

/-! ### The invariant -/

/-- What holds at every moment of a transfer. -/
structure Sound (t : Transfer) (d : Decoder) : Prop where
  transfer : d.transfer = some t
  within : ∀ x, d.Stores x → x.Within t.seqLen t.fragmentLen
  mixed : ∀ m ∈ d.held, m.isSingle = false
  distinct : (d.held.map Mix.support).Nodup
  few : d.held.length ≤ maxHeld

/-- How a transfer ends once every fragment is recovered. -/
def verdict (d : Decoder) (t : Transfer) : Except ChecksumMismatch Bytes :=
  if Crc32.checksum (d.assemble t) = t.checksum then .ok (d.assemble t)
  else .error ⟨t.checksum, Crc32.checksum (d.assemble t)⟩

/-- What holds until the transfer ends. -/
structure Running (t : Transfer) (d : Decoder) : Prop extends Sound t d where
  outcome : d.outcome = none
  missing : d.known.card < t.seqLen
  unknown : ∀ m ∈ d.held, Disjoint m.support d.known

/-- What holds once the transfer has ended. -/
structure Finished (t : Transfer) (d : Decoder) : Prop extends Sound t d where
  outcome : d.outcome = some (d.verdict t)
  full : d.known.card = t.seqLen
  queue : d.queue = []

theorem card_withFragment {d : Decoder} {i : Nat} (hi : i ∉ d.known) (data : Bytes) :
    (d.withFragment i data).known.card = d.known.card + 1 := by
  rw [known_withFragment, Finset.card_insert_of_notMem hi]

theorem Sound.length_hold_le {d : Decoder} (h : d.held.length ≤ maxHeld) (m : Mix) :
    (d.hold m).held.length ≤ maxHeld := by
  unfold hold
  split
  · rename_i hroom
    exact (Mix.length_upsert_le m d.held).trans hroom
  · exact h

theorem nodup_held_hold {d : Decoder} (h : (d.held.map Mix.support).Nodup) (m : Mix) :
    ((d.hold m).held.map Mix.support).Nodup := by
  unfold hold
  split
  · exact Mix.nodup_upsert h
  · exact h

theorem Running.sound_processed {t : Transfer} {d d' : Decoder} {m : Mix} (h : Running t d)
    (hm : m.Within t.seqLen t.fragmentLen) (hd' : Processed d t m d') : Sound t d' := by
  have htransfer := (transfer_processed hd').trans h.transfer
  have hwithin := stores_processed hd' (Mix.reductionClosed_within _ _) h.within hm
  cases hd' with
  | known _ _ => exact h.toSound
  | last _ _ _ => exact ⟨htransfer, hwithin, h.mixed, h.distinct, h.few⟩
  | fragment _ _ _ =>
      refine ⟨htransfer, hwithin, ?_, nodup_held_reduceHeld _ _,
        (length_held_reduceHeld_le _ _).trans h.few⟩
      intro x hx
      obtain ⟨-, -, -, hmixed⟩ := mem_held_reduceHeld hx
      exact hmixed
  | repeated _ _ _ => exact h.toSound
  | resolved _ _ => exact ⟨htransfer, hwithin, h.mixed, h.distinct, h.few⟩
  | kept _ hmixed' =>
      refine ⟨htransfer, hwithin, ?_, nodup_held_hold (nodup_held_reduceHeld _ _) _,
        Sound.length_hold_le ((length_held_reduceHeld_le _ _).trans h.few) _⟩
      intro x hx
      rcases mem_held_hold hx with rfl | hx
      · exact hmixed'
      · obtain ⟨-, -, -, hmixed⟩ := mem_held_reduceHeld hx
        exact hmixed

/-- A step goes on with the transfer or ends it. -/
theorem Running.processed {t : Transfer} {d d' : Decoder} {m : Mix} (h : Running t d)
    (hm : m.Within t.seqLen t.fragmentLen) (hd' : Processed d t m d') :
    Running t d' ∨ Finished t d' := by
  have hsound := h.sound_processed hm hd'
  cases hd' with
  | known _ _ => exact Or.inl h
  | @last i _ hi hsize =>
      -- The count of known fragments has reached that of the transfer.
      refine Or.inr ⟨hsound, rfl, ?_, rfl⟩
      rw [← hsize]
      exact card_known (d.withFragment i m.data)
  | @fragment i _ hi hsize =>
      have hcard := card_withFragment hi m.data
      rw [← card_known] at hsize
      refine Or.inl ⟨hsound, h.outcome, ?_, ?_⟩
      · rw [known_reduceHeld]
        have := h.missing
        omega
      · intro x hx
        obtain ⟨y, hy, rfl, -⟩ := mem_held_reduceHeld hx
        have hysingle := Mix.isSingle_eq_false_iff.1 (h.mixed y hy)
        rw [Mix.support_reduceBy_ofFragment hysingle, known_reduceHeld, known_withFragment,
          Finset.disjoint_insert_right]
        exact ⟨by simp, Finset.disjoint_of_subset_left Finset.sdiff_subset (h.unknown y hy)⟩
  | repeated _ _ _ => exact Or.inl h
  | resolved _ _ => exact Or.inl ⟨hsound, h.outcome, h.missing, h.unknown⟩
  | kept _ hmixed' =>
      refine Or.inl ⟨hsound, ?_, ?_, ?_⟩
      · rw [outcome_hold]
        exact h.outcome
      · rw [known_hold, known_reduceHeld]
        exact h.missing
      · intro x hx
        rw [known_hold, known_reduceHeld]
        rcases mem_held_hold hx with rfl | hx
        · exact disjoint_reduced d hmixed'
        · obtain ⟨y, hy, rfl, -⟩ := mem_held_reduceHeld hx
          exact Finset.disjoint_of_subset_left (Mix.support_reduceBy_subset y _) (h.unknown y hy)

theorem Running.isComplete {t : Transfer} {d : Decoder} (h : Running t d) :
    d.isComplete = false := by
  rw [Decoder.isComplete, h.outcome]
  rfl

theorem Finished.isComplete {t : Transfer} {d : Decoder} (h : Finished t d) :
    d.isComplete = true := by
  rw [Decoder.isComplete, h.outcome]
  rfl

/-! ### The loop and the calls -/

/-- The invariant survives changes of the queue, as long as what is queued is in order. -/
theorem Running.with_queue {t : Transfer} {d : Decoder} (h : Running t d) {queue : List Mix}
    (hqueue : ∀ m ∈ queue, m.Within t.seqLen t.fragmentLen) : Running t { d with queue } := by
  refine ⟨⟨h.transfer, ?_, h.mixed, h.distinct, h.few⟩, h.outcome, h.missing, h.unknown⟩
  exact Stores.of_places h.within (fun _ _ hx => Or.inl hx) (fun x hx => h.within x (.held hx))
    hqueue

/-- A running transfer goes on running with one more mix queued. -/
theorem Running.with_mix {t : Transfer} {d : Decoder} (h : Running t d) {m : Mix}
    (hm : m.Within t.seqLen t.fragmentLen) : Running t { d with queue := d.queue ++ [m] } :=
  h.with_queue (List.forall_mem_append.2
    ⟨fun x hx => h.within x (.queued hx), List.forall_mem_singleton.2 hm⟩)

/-- A decoder in a transfer that has not taken anything in. -/
def ofTransfer (t : Transfer) : Decoder := { transfer := some t }

theorem not_stores_ofTransfer {t : Transfer} {x : Mix} : ¬(ofTransfer t).Stores x :=
  not_stores_of_empty rfl rfl rfl

theorem running_ofTransfer {t : Transfer} (hpos : 0 < t.seqLen) : Running t (ofTransfer t) := by
  refine ⟨⟨rfl, fun x hx => absurd hx not_stores_ofTransfer, ?_, List.nodup_nil, Nat.zero_le _⟩,
    rfl, hpos, ?_⟩
  · exact fun m hm => absurd hm List.not_mem_nil
  · exact fun m hm => absurd hm List.not_mem_nil

/-- What every step of a running transfer keeps, the loop keeps, and the invariant with it. In a
step, `d` is the decoder without the mix `m` that it processes. -/
theorem Running.settle_induction {motive : Decoder → Prop} {t : Transfer} {d : Decoder}
    (h : Running t d) (start : motive d)
    (step : ∀ (d : Decoder) (m : Mix) (d' : Decoder), Running t d →
      m.Within t.seqLen t.fragmentLen → Processed d t m d' →
      motive { d with queue := m :: d.queue } → motive d') :
    motive (d.settle t) ∧
      ((Running t (d.settle t) ∧ (d.settle t).queue = []) ∨ Finished t (d.settle t)) := by
  -- A finished decoder takes no step, so each step starts from a running one.
  have hsettle := Decoder.settle_induction
    (motive := fun d => motive d ∧ (Running t d ∨ Finished t d)) t
    (fun d m rest houtcome hqueue ⟨hmotive, hphase⟩ => by
      have hrunning : Running t d := hphase.resolve_right fun hfinished => by
        have := hfinished.outcome
        rw [houtcome] at this
        exact absurd this (by simp)
      have hwithin (x : Mix) (hx : x ∈ m :: rest) := hrunning.within x (.queued (hqueue ▸ hx))
      obtain ⟨hm, hrest⟩ := List.forall_mem_cons.1 hwithin
      have hpopped := hrunning.with_queue hrest
      have hprocessed := Decoder.processed { d with queue := rest } t m
      refine ⟨step _ m _ hpopped hm hprocessed ?_, hpopped.processed hm hprocessed⟩
      rw [← hqueue]
      exact hmotive)
    d ⟨start, Or.inl h⟩
  refine ⟨hsettle.1, hsettle.2.imp_left fun hrunning => ⟨hrunning, ?_⟩⟩
  exact (settle_exit t d).resolve_left fun hne => hne hrunning.outcome

/-- The loop leaves nothing queued, or ends the transfer. -/
theorem Running.settle {t : Transfer} {d : Decoder} (h : Running t d) :
    (Running t (d.settle t) ∧ (d.settle t).queue = []) ∨ Finished t (d.settle t) :=
  (h.settle_induction (motive := fun _ => True) trivial fun _ _ _ _ _ _ _ => trivial).2

/-- The states between calls, when all parts are of messages that are not empty. -/
inductive Settled : Decoder → Prop
  | fresh : Settled empty
  | running {d : Decoder} {t : Transfer} (h : Running t d) (hqueue : d.queue = [])
      (hmixes : ∀ x, d.Stores x → x.support.Nonempty) : Settled d
  | finished {d : Decoder} {t : Transfer} (h : Finished t d)
      (hmixes : ∀ x, d.Stores x → x.support.Nonempty) : Settled d

/-- Between calls, no mix is of nothing. -/
theorem Settled.support_nonempty {d : Decoder} (h : Settled d) :
    ∀ x, d.Stores x → x.support.Nonempty := by
  cases h with
  | fresh => exact fun x hx => absurd hx not_stores_empty
  | running _ _ hmixes => exact hmixes
  | finished _ hmixes => exact hmixes

/-- The decoder with an accepted part queued, before the loop runs. -/
def queued (d : Decoder) (part : Part) : Decoder :=
  { d with transfer := some part.transfer, queue := d.queue ++ [part.mix] }

theorem accept_eq (d : Decoder) (part : Part) :
    d.accept part.transfer part.mix =
      { (d.queued part).settle part.transfer with received := d.received + 1 } := rfl

/-- Before the loop runs on a part that is not empty, the transfer is running. -/
theorem Settled.running_queued {d : Decoder} {part : Part} (h : Settled d)
    (hflaw : part.flaw? = none) (hmessage : 1 ≤ part.messageLen)
    (htransfer : d.transfer = none ∨ d.transfer = some part.transfer)
    (hcomplete : d.isComplete = false) : Running part.transfer (d.queued part) := by
  have hmix := Part.within_mix hflaw hmessage
  cases h with
  | fresh => exact (running_ofTransfer (Part.seqLen_pos hflaw hmessage)).with_mix hmix
  | running h _ _ =>
      have ht := htransfer.resolve_left (by rw [h.transfer]; exact Option.some_ne_none _)
      obtain rfl := Option.some.inj (h.transfer.symm.trans ht)
      have hrunning := h.with_mix hmix
      rwa [queued, ← ht]
  | finished h _ =>
      rw [h.isComplete] at hcomplete
      exact absurd hcomplete (by decide)

/-- Between calls, a transfer that has ended is finished. -/
theorem Settled.exists_finished {d : Decoder} (hd : Settled d) (hcomplete : d.isComplete = true) :
    ∃ t, Finished t d := by
  cases hd with
  | fresh => exact absurd hcomplete (by decide)
  | running h _ _ =>
      rw [h.isComplete] at hcomplete
      exact absurd hcomplete (by decide)
  | finished h _ => exact ⟨_, h⟩

theorem stores_of_received {d : Decoder} {received : Nat} {x : Mix}
    (h : { d with received := received : Decoder }.Stores x) : d.Stores x := by
  cases h with
  | recovered h => exact .recovered h
  | held h => exact .held h
  | queued h => exact .queued h

theorem Running.with_received {t : Transfer} {d : Decoder} (h : Running t d) (received : Nat) :
    Running t { d with received } :=
  ⟨⟨h.transfer, fun x hx => h.within x (stores_of_received hx), h.mixed, h.distinct, h.few⟩,
    h.outcome, h.missing, h.unknown⟩

theorem Finished.with_received {t : Transfer} {d : Decoder} (h : Finished t d) (received : Nat) :
    Finished t { d with received } :=
  ⟨⟨h.transfer, fun x hx => h.within x (stores_of_received hx), h.mixed, h.distinct, h.few⟩,
    h.outcome, h.full, h.queue⟩

/-- An accepted part leads from a state between calls to one. -/
theorem Settled.receive {d d' : Decoder} {part : Part} (hd : Settled d)
    (hmessage : 1 ≤ part.messageLen) (h : d.receive part = .ok d') : Settled d' := by
  have hmixes := stores_receive h Mix.reductionClosed_nonempty hd.support_nonempty
    (Part.support_mix_nonempty (receive_eq_ok_iff.1 h).1 hmessage)
  obtain ⟨hflaw, htransfer, rfl, -⟩ := receive_eq_ok_iff.1 h
  cases hcomplete : d.isComplete with
  | true => simpa using hd
  | false =>
      have hrunning := hd.running_queued hflaw hmessage htransfer hcomplete
      rw [hcomplete, if_neg Bool.false_ne_true, accept_eq] at hmixes
      rw [if_neg Bool.false_ne_true, accept_eq]
      rcases hrunning.settle with ⟨h, hqueue⟩ | h
      · exact .running (h.with_received _) hqueue hmixes
      · exact .finished (h.with_received _) hmixes

/-- After any sequence of parts of which the accepted ones are of messages that are not empty, the decoder
is in a state between calls. -/
theorem settled_of_accepted {parts : List Part}
    (hparts : ∀ part ∈ empty.accepted parts, 1 ≤ part.messageLen) :
    Settled (empty.receiveAll parts) := by
  refine run_induction (motive := fun accepted d =>
    (∀ part ∈ accepted, 1 ≤ part.messageLen) → Settled d) parts (fun _ => .fresh) ?_ hparts
  intro before d part d' _ hbefore hreceive hall
  obtain ⟨hall, hpart⟩ := List.forall_mem_append.1 hall
  exact (hbefore hall).receive (hpart part (List.mem_singleton_self part)) hreceive

theorem settled_receiveAll {parts : List Part} (hparts : ∀ part ∈ parts, 1 ≤ part.messageLen) :
    Settled (empty.receiveAll parts) :=
  settled_of_accepted fun part hpart => hparts part (mem_of_mem_accepted hpart)

/-- Between calls, no more fragments are recovered than the transfer has. -/
theorem Settled.size_le {d : Decoder} {seqLen : Nat} (hd : Settled d)
    (hseq : d.seqLen? = some seqLen) : d.recovered.size ≤ seqLen := by
  rw [← card_known]
  cases hd with
  | fresh => exact absurd hseq (by simp [seqLen?, empty])
  | running h _ _ =>
      rw [seqLen?, h.transfer, Option.map_some, Option.some.injEq] at hseq
      exact hseq ▸ h.missing.le
  | finished h _ =>
      rw [seqLen?, h.transfer, Option.map_some, Option.some.injEq] at hseq
      exact hseq ▸ h.full.le

/-- Between calls, a transfer of which every index is known has ended. -/
theorem Settled.isComplete_of_full {d : Decoder} {seqLen : Nat} (hd : Settled d)
    (hseq : d.seqLen? = some seqLen) (hfull : Finset.range seqLen ⊆ d.known) :
    d.isComplete = true := by
  cases hd with
  | fresh => exact absurd hseq (by simp [seqLen?, empty])
  | running h _ _ =>
      rw [seqLen?, h.transfer, Option.map_some, Option.some.injEq] at hseq
      have hcard := Finset.card_le_card hfull
      have hmissing := h.missing
      rw [Finset.card_range] at hcard
      omega
  | finished h _ => exact h.isComplete

/-- What a user of a decoder can rely on between calls. -/
structure Coherent (d : Decoder) : Prop where
  queue : d.queue = []
  /-- What is recovered are fragments of the transfer. -/
  recovered : ∀ i data, d.recovered[i]? = some data →
    ∃ t, d.transfer = some t ∧ i < t.seqLen ∧ data.length = t.fragmentLen
  /-- What is held are mixes of two or more fragments of the transfer. -/
  held : ∀ m ∈ d.held, ∃ t, d.transfer = some t ∧
    2 ≤ m.indexes.card ∧ (∀ i ∈ m.indexes, i < t.seqLen) ∧ m.data.length = t.fragmentLen
  distinct : (d.held.map Mix.indexes).Nodup
  few : d.held.length ≤ 256
  /-- Until the transfer ends, a held mix is of missing fragments only. -/
  unknown : d.isComplete = false → ∀ m ∈ d.held, ∀ i ∈ m.indexes, i ∉ d.recovered
  /-- The transfer has ended if as many fragments are recovered as it has. -/
  complete : d.isComplete = true ↔ d.seqLen? = some d.recovered.size

theorem coherent_empty : Coherent empty := by
  refine ⟨rfl, ?_, ?_, List.nodup_nil, Nat.zero_le _, ?_, ?_⟩
  · intro i data h
    exact absurd h (by simp [empty])
  · exact fun m hm => absurd hm List.not_mem_nil
  · exact fun _ m hm => absurd hm List.not_mem_nil
  · simp [isComplete, seqLen?, empty]

/-- A sound decoder with nothing queued is coherent, if it holds nothing known before the end and the
end comes with the last fragment. -/
theorem Sound.coherent {t : Transfer} {d : Decoder} (h : Sound t d) (hqueue : d.queue = [])
    (hmixes : ∀ x, d.Stores x → x.support.Nonempty)
    (hunknown : d.isComplete = false → ∀ m ∈ d.held, Disjoint m.support d.known)
    (hcomplete : d.isComplete = true ↔ d.known.card = t.seqLen) : Coherent d := by
  refine ⟨hqueue, ?_, ?_, ?_, h.few, ?_, ?_⟩
  · intro i data hi
    have hwithin := h.within _ (.recovered hi)
    refine ⟨t, h.transfer, hwithin.lt i ?_, hwithin.length⟩
    rw [Mix.support_ofFragment]
    exact Finset.mem_singleton_self i
  · intro m hm
    have hwithin := h.within m (.held hm)
    have hpos := (hmixes m (.held hm)).card_pos
    have hne := Mix.isSingle_eq_false_iff.1 (h.mixed m hm)
    refine ⟨t, h.transfer, ?_, fun i hi => hwithin.lt i (IndexSet.mem_toFinset.2 hi), hwithin.length⟩
    rw [← Mix.card_support]
    omega
  · have hdistinct := h.distinct
    have hmap : d.held.map Mix.support = (d.held.map Mix.indexes).map IndexSet.toFinset := by
      rw [List.map_map]
      rfl
    rw [hmap] at hdistinct
    exact hdistinct.of_map _
  · intro hrunning m hm i hi hrecovered
    have hdisjoint := Finset.disjoint_left.1 (hunknown hrunning m hm)
    exact hdisjoint (IndexSet.mem_toFinset.2 hi) (mem_known.2 hrecovered)
  · rw [hcomplete, seqLen?, h.transfer, Option.map_some, Option.some.injEq, card_known]
    exact eq_comm

theorem Settled.coherent {d : Decoder} (hd : Settled d) : Coherent d := by
  cases hd with
  | fresh => exact coherent_empty
  | running h hqueue hmixes =>
      refine h.toSound.coherent hqueue hmixes (fun _ => h.unknown) ?_
      rw [h.isComplete]
      exact ⟨fun h => absurd h Bool.false_ne_true, fun hfull => absurd hfull h.missing.ne⟩
  | finished h hmixes =>
      refine h.toSound.coherent h.queue hmixes ?_ ⟨fun _ => h.full, fun _ => h.isComplete⟩
      intro hrunning
      rw [h.isComplete] at hrunning
      exact absurd hrunning.symm Bool.false_ne_true

/-- Holding distinct mixes of fragments of a transfer, not too many, and having recovered none is
coherent. -/
theorem coherent_holding {t : Transfer} {held : List Mix} (hpos : 0 < t.seqLen)
    (hheld : ∀ m ∈ held, 2 ≤ m.indexes.card ∧ (∀ i ∈ m.indexes, i < t.seqLen) ∧
      m.data.length = t.fragmentLen)
    (hdistinct : (held.map Mix.indexes).Nodup) (hfew : held.length ≤ 256) :
    Coherent { ofTransfer t with held } := by
  refine ⟨rfl, ?_, fun m hm => ⟨t, rfl, hheld m hm⟩, hdistinct, hfew, ?_, ?_⟩
  · intro i data h
    exact absurd h (by simp [ofTransfer])
  · intro _ m _ i _
    simp [ofTransfer]
  · simp [isComplete, seqLen?, ofTransfer, hpos.ne']

/-- Whatever parts of messages that are not empty a decoder was offered, its state is coherent. -/
theorem coherent_receiveAll (parts : List Part) (hparts : ∀ part ∈ parts, 1 ≤ part.messageLen) :
    Coherent (empty.receiveAll parts) :=
  (settled_receiveAll hparts).coherent

/-- One fragment of two, and a part that mixes some. -/
theorem coherent_receiveAll_two_parts :
    let parts : List Part := [⟨1, 2, 2, 0, [0x2a]⟩, ⟨5, 2, 2, 0, [0x3d]⟩]
    (∀ part ∈ parts, 1 ≤ part.messageLen) ∧ Coherent (empty.receiveAll parts) := by
  intro parts
  have hparts : ∀ part ∈ parts, 1 ≤ part.messageLen := by decide
  exact ⟨hparts, coherent_receiveAll parts hparts⟩

end UrReplay.Fountain.Decoder
