import UrReplay.Proofs.Fountain.Integrity
/-!
# UrReplay.Proofs.Fountain.Progress

A decoder never forgets a fragment (`known_subset_receive`), and learns every fragment that an
accepted part carries alone (`mem_known_receiveAll`). So a transfer has ended at the latest when each
fragment has arrived alone (`isComplete_of_singles`).

A fragment that is queued stays queued until it is its turn, or the transfer ends before
(`mem_queue_processed`).
-/

namespace UrReplay.Fountain.Decoder

variable {d d' : Decoder} {t : Transfer} {m : Mix} {part : Part} {i : Nat}

/-! ### One step -/

theorem known_subset_processed (h : Processed d t m d') : d.known ⊆ d'.known := by
  cases h with
  | known _ _ => exact Finset.Subset.refl _
  | @last i _ _ _ =>
      rw [known_finish, known_withFragment]
      exact Finset.subset_insert i d.known
  | @fragment i _ _ _ =>
      rw [known_reduceHeld, known_withFragment]
      exact Finset.subset_insert i d.known
  | repeated _ _ _ => exact Finset.Subset.refl _
  | resolved _ _ => exact Finset.Subset.refl _
  | kept _ _ =>
      rw [known_hold, known_reduceHeld]

/-- A single fragment is known once it has been processed. -/
theorem mem_known_processed (h : Processed d t m d') (hm : m.support = {i}) : i ∈ d'.known := by
  have hsingle : m.isSingle = true := by
    rw [Mix.isSingle_iff, hm, Finset.card_singleton]
  have hindex {j : Nat} (hj : m = .ofFragment j m.data) : j = i := by
    rw [hj, Mix.support_ofFragment] at hm
    exact Finset.singleton_inj.1 hm
  cases h with
  | known hj hknown =>
      rw [← hindex hj]
      exact hknown
  | @last j hj _ _ =>
      rw [known_finish, known_withFragment, hindex hj]
      exact Finset.mem_insert_self i d.known
  | @fragment j hj _ _ =>
      rw [known_reduceHeld, known_withFragment, hindex hj]
      exact Finset.mem_insert_self i d.known
  | repeated hmixed _ _ => exact absurd hsingle (Bool.eq_false_iff.1 hmixed)
  | resolved hmixed _ => exact absurd hsingle (Bool.eq_false_iff.1 hmixed)
  | kept hmixed _ => exact absurd hsingle (Bool.eq_false_iff.1 hmixed)

/-- What is queued stays queued, or the transfer ends. -/
theorem mem_queue_processed (h : Processed d t m d') {x : Mix} (hx : x ∈ d.queue) :
    x ∈ d'.queue ∨ d'.outcome ≠ none := by
  cases h with
  | known _ _ => exact Or.inl hx
  | last _ _ _ => exact Or.inr (Option.some_ne_none _)
  | fragment _ _ _ => exact Or.inl (mem_queue_reduceHeld.2 (Or.inl hx))
  | repeated _ _ _ => exact Or.inl hx
  | resolved _ _ => exact Or.inl (List.mem_append_left _ hx)
  | kept _ _ =>
      rw [queue_hold]
      exact Or.inl (mem_queue_reduceHeld.2 (Or.inl hx))

/-! ### The loop and the calls -/

theorem known_subset_settle (d : Decoder) (t : Transfer) : d.known ⊆ (d.settle t).known :=
  settle_induction (motive := fun d' => d.known ⊆ d'.known) t
    (fun d' m rest _ _ h => by
      have hstep := known_subset_processed (processed { d' with queue := rest } t m)
      exact h.trans hstep)
    d (Finset.Subset.refl _)

/-- A single fragment that is queued is known when the loop is done. -/
theorem Running.mem_known_settle (h : Running t d) {x : Mix} (hx : x ∈ d.queue)
    (hi : x.support = {i}) : i ∈ (d.settle t).known := by
  obtain ⟨hmotive, hphase⟩ := h.settle_induction
    (motive := fun d' => i ∈ d'.known ∨ x ∈ d'.queue ∨ d'.outcome ≠ none) (Or.inr (Or.inl hx))
    (fun d m d' hrunning _ hprocessed hd => by
      rcases hd with hd | hd | hd
      · exact Or.inl (known_subset_processed hprocessed hd)
      · rcases List.mem_cons.1 hd with rfl | hd
        · exact Or.inl (mem_known_processed hprocessed hi)
        · exact Or.inr (mem_queue_processed hprocessed hd)
      · exact absurd hrunning.outcome hd)
  -- The loop leaves nothing queued, so the fragment has had its turn or the transfer has ended.
  rcases hphase with ⟨hrunning, hqueue⟩ | hfinished
  · rcases hmotive with hknown | hqueued | hended
    · exact hknown
    · rw [hqueue] at hqueued
      exact absurd hqueued List.not_mem_nil
    · exact absurd hrunning.outcome hended
  · have hlt := (h.within x (.queued hx)).lt i
    rw [hi] at hlt
    rw [hfinished.known_eq]
    exact Finset.mem_range.2 (hlt (Finset.mem_singleton_self i))

theorem known_subset_receive (h : d.receive part = .ok d') : d.known ⊆ d'.known := by
  obtain ⟨-, -, rfl, -⟩ := receive_eq_ok_iff.1 h
  split
  · exact Finset.Subset.refl _
  · rw [accept_eq]
    exact known_subset_settle (d.queued part) part.transfer

/-- A fragment that an accepted part carries alone is known. -/
theorem Settled.mem_known_receive (hd : Settled d) (hmessage : 1 ≤ part.messageLen)
    (h : d.receive part = .ok d') (hi : part.indexes.toFinset = {i}) : i ∈ d'.known := by
  obtain ⟨hflaw, htransfer, rfl, -⟩ := receive_eq_ok_iff.1 h
  cases hcomplete : d.isComplete with
  | false =>
      have hrunning := hd.running_queued hflaw hmessage htransfer hcomplete
      have hqueued : part.mix ∈ (d.queued part).queue :=
        List.mem_append_right _ (List.mem_singleton_self _)
      rw [if_neg Bool.false_ne_true, accept_eq]
      exact hrunning.mem_known_settle hqueued hi
  | true =>
      obtain ⟨t, hfinished⟩ := hd.exists_finished hcomplete
      have ht := htransfer.resolve_left (by rw [hfinished.transfer]; exact Option.some_ne_none _)
      obtain rfl := Option.some.inj (hfinished.transfer.symm.trans ht)
      have hlt : ∀ j ∈ part.indexes.toFinset, j < part.seqLen :=
        (Part.within_mix hflaw hmessage).lt
      rw [if_pos rfl, hfinished.known_eq]
      exact Finset.mem_range.2 (hlt i (by rw [hi]; exact Finset.mem_singleton_self i))

/-- Every fragment that an accepted part carried alone is known. -/
theorem mem_known_receiveAll {parts : List Part} (hparts : ∀ part ∈ parts, 1 ≤ part.messageLen)
    (hpart : part ∈ empty.accepted parts) (hi : part.indexes.toFinset = {i}) :
    i ∈ (empty.receiveAll parts).known := by
  have hrun := run_induction (motive := fun accepted d =>
    Settled d ∧ ∀ part ∈ accepted, ∀ i, part.indexes.toFinset = {i} → i ∈ d.known) parts
    ⟨.fresh, fun part hpart => absurd hpart List.not_mem_nil⟩
    (fun before d part d' hpart ⟨hd, hbefore⟩ hreceive => by
      have hmessage := hparts part hpart
      refine ⟨hd.receive hmessage hreceive, ?_⟩
      intro p hp i hi
      rcases List.mem_append.1 hp with hp | hp
      · exact known_subset_receive hreceive (hbefore p hp i hi)
      · rw [List.mem_singleton.1 hp] at hi
        exact hd.mem_known_receive hmessage hreceive hi)
  exact hrun.2 part hpart i hi

/-- A transfer has ended when every fragment has arrived alone. -/
theorem isComplete_of_singles {parts : List Part} {seqLen : Nat}
    (hparts : ∀ part ∈ parts, 1 ≤ part.messageLen)
    (hseq : (empty.receiveAll parts).seqLen? = some seqLen)
    (hsingles : ∀ i < seqLen, ∃ part ∈ empty.accepted parts, part.indexes.toFinset = {i}) :
    (empty.receiveAll parts).isComplete = true := by
  refine (settled_receiveAll hparts).isComplete_of_full hseq ?_
  intro i hi
  obtain ⟨part, hpart, hindexes⟩ := hsingles i (Finset.mem_range.1 hi)
  exact mem_known_receiveAll hparts hpart hindexes

end UrReplay.Fountain.Decoder
