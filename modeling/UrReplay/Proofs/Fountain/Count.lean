import UrReplay.Proofs.Fountain.Run
/-!
# UrReplay.Proofs.Fountain.Count

How many parts it takes. A decoder never has more mixes in its three places than parts that it took in
(`stored_receiveAll_le`), so it cannot have recovered more fragments than it has received parts. The
loop makes nothing new: what it takes from the queue goes to one place at most, and what is held goes to
the queue or stays.
-/

namespace UrReplay.Fountain.Decoder

variable {d d' : Decoder} {t : Transfer} {m : Mix} {part : Part}

/-- The number of mixes in the three places; a recovered fragment counts as one. -/
def stored (d : Decoder) : Nat := d.recovered.size + d.held.length + d.queue.length

theorem stored_withFragment_le (d : Decoder) (i : Nat) (data : Bytes) :
    (d.withFragment i data).stored ≤ d.stored + 1 := by
  have hsize : (d.recovered.insert i data).size ≤ d.recovered.size + 1 :=
    Std.TreeMap.size_insert_le
  unfold stored withFragment
  dsimp only
  omega

/-- Every held mix is held or queued after it was reduced, and some may turn out the same. -/
theorem stored_reduceHeld_le (d : Decoder) (new : Mix) : (d.reduceHeld new).stored ≤ d.stored := by
  have hcollect := Mix.length_collect_le ((d.held.map (·.reduceBy new)).filter (!·.isSingle))
  have hparts := List.length_eq_length_filter_add (l := d.held.map (·.reduceBy new)) (·.isSingle)
  rw [List.length_map] at hparts
  unfold stored reduceHeld
  rw [List.length_append]
  dsimp only
  omega

theorem stored_hold_le (d : Decoder) (m : Mix) : (d.hold m).stored ≤ d.stored + 1 := by
  unfold hold
  split
  · have hupsert := Mix.length_upsert_le m d.held
    unfold stored
    dsimp only
    omega
  · omega

/-- Processing a mix stores it at most once. -/
theorem stored_processed_le (h : Processed d t m d') : d'.stored ≤ d.stored + 1 := by
  cases h with
  | known _ _ => omega
  | @last i _ _ _ =>
      -- The end empties the queue.
      have hfinish : ((d.withFragment i m.data).finish t).stored ≤ (d.withFragment i m.data).stored :=
        Nat.add_le_add_left (Nat.zero_le _) _
      exact hfinish.trans (stored_withFragment_le d i m.data)
  | @fragment i _ _ _ =>
      exact (stored_reduceHeld_le _ _).trans (stored_withFragment_le d i m.data)
  | repeated _ _ _ => omega
  | resolved _ _ => simp [stored, Nat.add_assoc]
  | kept _ _ =>
      have hreduced := stored_reduceHeld_le d (d.reduced m)
      have hhold := stored_hold_le (d.reduceHeld (d.reduced m)) (d.reduced m)
      omega

theorem stored_settle_le (t : Transfer) (d : Decoder) : (d.settle t).stored ≤ d.stored := by
  refine settle_induction (motive := fun d' => d'.stored ≤ d.stored) t ?_ d (Nat.le_refl _)
  intro d' m rest _ hqueue h
  have hprocessed := stored_processed_le (processed { d' with queue := rest } t m)
  have hpopped : d'.stored = { d' with queue := rest }.stored + 1 := by
    rw [stored, hqueue, List.length_cons]
    rfl
  omega

theorem received_accept (d : Decoder) (t : Transfer) (m : Mix) :
    (d.accept t m).received = d.received + 1 := rfl

theorem stored_accept_le (d : Decoder) (t : Transfer) (m : Mix) :
    (d.accept t m).stored ≤ d.stored + 1 := by
  refine (stored_settle_le t _).trans ?_
  rw [stored, List.length_append]
  exact Nat.le_refl _

/-- Until the end, accepted parts are counted. -/
theorem received_receive (h : d.receive part = .ok d') (hd : d.isComplete = false) :
    d'.received = d.received + 1 := by
  obtain ⟨-, -, rfl, -⟩ := receive_eq_ok_iff.1 h
  rw [hd]
  rfl

/-- What counts as received has been accepted. After the end, parts are accepted that do not count. -/
theorem received_receiveAll_le (parts : List Part) :
    (empty.receiveAll parts).received ≤ (empty.accepted parts).length := by
  refine run_induction (motive := fun accepted d => d.received ≤ accepted.length) parts
    (Nat.le_refl _) ?_
  intro before d part d' _ hd h
  rw [List.length_append, List.length_singleton]
  cases hcomplete : d.isComplete with
  | true =>
      obtain ⟨-, -, rfl, -⟩ := receive_eq_ok_iff.1 h
      rw [hcomplete, if_pos rfl]
      exact Nat.le_succ_of_le hd
  | false =>
      rw [received_receive h hcomplete]
      exact Nat.succ_le_succ hd

/-- No more is stored than parts were taken in. -/
theorem stored_receiveAll_le (parts : List Part) :
    (empty.receiveAll parts).stored ≤ (empty.receiveAll parts).received := by
  refine run_induction (motive := fun _ d => d.stored ≤ d.received) parts (Nat.le_refl _) ?_
  intro _ d part d' _ hd h
  obtain ⟨-, -, rfl, -⟩ := receive_eq_ok_iff.1 h
  split
  · exact hd
  · rw [received_accept]
    exact (stored_accept_le d part.transfer part.mix).trans (Nat.succ_le_succ hd)

/-- No more fragments are recovered than parts were taken in. -/
theorem size_recovered_le_received (parts : List Part) :
    (empty.receiveAll parts).recovered.size ≤ (empty.receiveAll parts).received :=
  (Nat.le_add_right _ _).trans ((Nat.le_add_right _ _).trans (stored_receiveAll_le parts))

end UrReplay.Fountain.Decoder
