import UrReplay.Proofs.Fountain.Integrity
/-!
# UrReplay.Proofs.Fountain.Feed

Mixes of fragments that are fed to the reduction loop one after another.

* `feed` queues a mix and runs the loop. Receiving parts is feeding their mixes
  (`receiveAll_eq_feedAll`), but every mix can be fed, also one that no part carries.
* Between mixes a transfer is running with nothing queued, or finished (`paused_feedAll`). What
  reductions keep, and what was fed satisfies, holds of everything stored (`stores_feedAll`).
-/

namespace UrReplay.Fountain.Decoder

open Mix (ReductionClosed Within)

variable {d : Decoder} {t : Transfer} {m : Mix} {ms : List Mix}

/-- Takes in a mix: it is queued, and the loop runs. After the end nothing changes. -/
def feed (d : Decoder) (t : Transfer) (m : Mix) : Decoder :=
  if d.isComplete then d else { d with queue := d.queue ++ [m] }.settle t

/-- Takes in mixes one after another. -/
def feedAll (d : Decoder) (t : Transfer) (ms : List Mix) : Decoder :=
  ms.foldl (fun d m => d.feed t m) d

theorem feedAll_concat (d : Decoder) (t : Transfer) (ms : List Mix) (m : Mix) :
    d.feedAll t (ms ++ [m]) = (d.feedAll t ms).feed t m :=
  List.foldl_concat _ _ _ _

/-- What holds before anything is fed, and is kept by every mix, holds after all of them. -/
theorem feedAll_induction {motive : List Mix → Decoder → Prop} (ms : List Mix)
    (start : motive [] (ofTransfer t))
    (step : ∀ before d m, m ∈ ms → motive before d → motive (before ++ [m]) (d.feed t m)) :
    motive ms ((ofTransfer t).feedAll t ms) := by
  induction ms using List.reverseRecOn with
  | nil => exact start
  | append_singleton ms m ih =>
    rw [feedAll_concat]
    refine step ms _ m (List.mem_append_right _ (List.mem_singleton_self m)) (ih ?_)
    exact fun before d x hx => step before d x (List.mem_append_left _ hx)

/-! ### What is stored -/

theorem stores_feed {P : Mix → Prop} (hP : ReductionClosed P) (hd : ∀ x, d.Stores x → P x)
    (hm : P m) : ∀ x, (d.feed t m).Stores x → P x := by
  unfold feed
  split
  · exact hd
  · refine stores_settle t hP ?_
    refine Stores.of_places hd (fun _ _ h => Or.inl h) (fun x hx => hd x (.held hx)) ?_
    exact List.forall_mem_append.2
      ⟨fun x hx => hd x (.queued hx), List.forall_mem_singleton.2 hm⟩

theorem stores_feedAll {P : Mix → Prop} (hP : ReductionClosed P) (hms : ∀ m ∈ ms, P m) :
    ∀ x, ((ofTransfer t).feedAll t ms).Stores x → P x :=
  feedAll_induction (motive := fun _ d => ∀ x, d.Stores x → P x) ms
    (fun _ hx => absurd hx not_stores_ofTransfer)
    (fun _ _ m hm hd => stores_feed hP hd (hms m hm))

/-! ### The invariant -/

/-- The states of a transfer between mixes. -/
inductive Paused (t : Transfer) (d : Decoder) : Prop
  | running (h : Running t d) (hqueue : d.queue = [])
  | finished (h : Finished t d)

theorem Running.feed_eq (h : Running t d) (m : Mix) :
    d.feed t m = { d with queue := d.queue ++ [m] }.settle t := by
  rw [feed, h.isComplete, if_neg Bool.false_ne_true]

theorem Finished.feed_eq (h : Finished t d) (m : Mix) : d.feed t m = d := by
  rw [feed, h.isComplete, if_pos rfl]

theorem Paused.feed (h : Paused t d) (hm : m.Within t.seqLen t.fragmentLen) :
    Paused t (d.feed t m) := by
  cases h with
  | running h _ =>
      rw [h.feed_eq]
      rcases (h.with_mix hm).settle with ⟨hrunning, hqueue⟩ | hfinished
      · exact .running hrunning hqueue
      · exact .finished hfinished
  | finished h =>
      rw [h.feed_eq]
      exact .finished h

theorem paused_feedAll (hpos : 0 < t.seqLen)
    (hms : ∀ m ∈ ms, m.Within t.seqLen t.fragmentLen) :
    Paused t ((ofTransfer t).feedAll t ms) :=
  feedAll_induction (motive := fun _ d => Paused t d) ms (.running (running_ofTransfer hpos) rfl)
    (fun _ _ m hm hd => hd.feed (hms m hm))

/-! ### Receiving is feeding

Besides the check of a part, `receive` only counts, and the loop does not look at the count. -/

/-- The decoder with another count of accepted parts. -/
def withReceived (d : Decoder) (received : Nat) : Decoder := { d with received }

theorem hold_withReceived (d : Decoder) (m : Mix) (received : Nat) :
    (d.withReceived received).hold m = (d.hold m).withReceived received := by
  unfold hold
  rw [apply_ite (withReceived · received)]
  rfl

theorem addFragment_withReceived (d : Decoder) (t : Transfer) (i : Nat) (data : Bytes)
    (received : Nat) :
    (d.withReceived received).addFragment t i data =
      (d.addFragment t i data).withReceived received := by
  unfold addFragment
  dsimp only
  rw [apply_ite (withReceived · received), apply_ite (withReceived · received)]
  rfl

theorem addMix_withReceived (d : Decoder) (m : Mix) (received : Nat) :
    (d.withReceived received).addMix m = (d.addMix m).withReceived received := by
  unfold addMix
  dsimp only
  rw [apply_ite (withReceived · received), apply_ite (withReceived · received),
    ← hold_withReceived]
  rfl

theorem process_withReceived (d : Decoder) (t : Transfer) (m : Mix) (received : Nat) :
    (d.withReceived received).process t m = (d.process t m).withReceived received := by
  unfold process
  split
  · exact addFragment_withReceived d t _ m.data received
  · exact addMix_withReceived d m received

theorem settle_withReceived (d : Decoder) (t : Transfer) (received : Nat) :
    (d.withReceived received).settle t = (d.settle t).withReceived received := by
  fun_induction settle d t with
  | case1 d hcomplete => exact settle_of_isComplete (d := d.withReceived received) hcomplete t
  | case2 d _ hqueue => exact settle_of_queue_eq_nil (d := d.withReceived received) hqueue t
  | case3 d hcomplete m rest hqueue _ ih =>
      rw [← ih, ← process_withReceived]
      exact settle_of_queue_eq_cons (d := d.withReceived received) (Bool.eq_false_iff.2 hcomplete)
        hqueue t

/-- In a transfer, an accepted part feeds its mix. -/
theorem exists_feed_eq {part : Part} (htransfer : d.transfer = some part.transfer)
    (received : Nat) :
    ∃ n, (if d.isComplete then d.withReceived received
      else (d.withReceived received).accept part.transfer part.mix) =
        (d.feed part.transfer part.mix).withReceived n := by
  rw [feed]
  split
  · exact ⟨received, rfl⟩
  · have hqueued : (d.withReceived received).queued part =
        { d with queue := d.queue ++ [part.mix] : Decoder }.withReceived received := by
      unfold queued withReceived
      rw [← htransfer]
    rw [accept_eq, hqueued, settle_withReceived]
    exact ⟨received + 1, rfl⟩

/-- Receiving parts is feeding the mixes of those that are accepted. -/
theorem receiveAll_eq_feedAll {parts : List Part}
    (ht : (empty.receiveAll parts).transfer = some t) :
    ∃ received, empty.receiveAll parts =
      ((ofTransfer t).feedAll t ((empty.accepted parts).map Part.mix)).withReceived received := by
  have hrun := run_induction (motive := fun accepted d => accepted = [] ∧ d = empty ∨
    ∃ t received, d.transfer = some t ∧
      d = ((ofTransfer t).feedAll t (accepted.map Part.mix)).withReceived received)
    parts (Or.inl ⟨rfl, rfl⟩) (fun before d part d' _ hbefore hreceive => by
      obtain ⟨-, hagree, rfl, -⟩ := receive_eq_ok_iff.1 hreceive
      refine Or.inr ⟨part.transfer, ?_⟩
      rw [List.map_append, List.map_singleton, feedAll_concat]
      rcases hbefore with ⟨rfl, rfl⟩ | ⟨t, received, htransfer, hd⟩
      · -- The first part fixes the transfer.
        have hfresh : (ofTransfer part.transfer).transfer = some part.transfer := rfl
        obtain ⟨n, hn⟩ := exists_feed_eq hfresh 0
        exact ⟨n, transfer_accept _ _ _, hn⟩
      · have ht := hagree.resolve_left (htransfer ▸ Option.some_ne_none t)
        obtain rfl := Option.some.inj (htransfer.symm.trans ht)
        generalize (ofTransfer part.transfer).feedAll part.transfer (before.map Part.mix) = fed at *
        subst hd
        obtain ⟨n, hn⟩ := exists_feed_eq (d := fed) htransfer received
        refine ⟨n, ?_, hn⟩
        split
        · exact htransfer
        · exact transfer_accept _ _ _)
  rcases hrun with ⟨-, hempty⟩ | ⟨t', received, ht', hfed⟩
  · rw [hempty] at ht
    exact absurd ht (Option.some_ne_none t).symm
  · obtain rfl := Option.some.inj (ht.symm.trans ht')
    exact ⟨received, hfed⟩

end UrReplay.Fountain.Decoder
