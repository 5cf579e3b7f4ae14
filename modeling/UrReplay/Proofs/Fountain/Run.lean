import UrReplay.Proofs.Fountain.Choice
import UrReplay.Proofs.Fountain.FragmentLength
import UrReplay.Proofs.Fountain.Step
/-!
# UrReplay.Proofs.Fountain.Run

Receiving many parts.

* `receive_eq_ok_iff` says when a part is accepted and what becomes of the decoder then. Only a part of no
  fragments makes receiving panic (`receive_ne_panicked`).
* `receiveAll` offers parts one after another, and `accepted` are those among them that are not
  refused. `run_induction` proves facts about both: what holds at the start and what an accepted part
  keeps holds after any sequence of parts.
* An accepted part of a message that is not empty carries a mix of fragments of its transfer
  (`Part.within_mix`), at least one (`Part.support_mix_nonempty`).
-/

namespace UrReplay.Fountain

/-! ### What a part carries -/

namespace Part

theorem mem_support_mix {part : Part} {i : Nat} : i ∈ part.mix.support ↔ i ∈ part.indexes :=
  IndexSet.mem_toFinset

/-- A part is in order if it has data and as many fragments as the lengths need, and not too many. -/
theorem flaw?_eq_none_iff {part : Part} :
    part.flaw? = none ↔
      part.data ≠ [] ∧ part.seqLen = fragmentCount part.messageLen part.data.length ∧
        part.seqLen ≤ maxSeqLen := by
  unfold flaw?
  split
  · simp_all
  · split
    · simp_all
    · split
      · simp_all
      · simp_all

theorem seqLen_pos {part : Part} (h : part.flaw? = none) (hmessage : 1 ≤ part.messageLen) :
    0 < part.seqLen := by
  obtain ⟨hdata, hseq, -⟩ := flaw?_eq_none_iff.1 h
  rw [hseq]
  exact fragmentCount_pos hmessage (List.length_pos_iff.2 hdata)

/-- A part in order is of no fragments exactly if its message is empty. -/
theorem seqLen_eq_zero_iff {part : Part} (h : part.flaw? = none) :
    part.seqLen = 0 ↔ part.messageLen = 0 := by
  obtain ⟨hdata, hseq, -⟩ := flaw?_eq_none_iff.1 h
  rw [hseq, ← Nat.le_zero, fragmentCount_le_iff (List.length_pos_iff.2 hdata), Nat.mul_zero,
    Nat.le_zero]

/-- A part in order mixes at least one fragment. -/
theorem support_mix_nonempty {part : Part} (h : part.flaw? = none)
    (hmessage : 1 ≤ part.messageLen) : part.mix.support.Nonempty := by
  obtain ⟨chosen, -, hchoice, hmem, -⟩ := part.exists_indexes (seqLen_pos h hmessage)
  obtain ⟨i, hi⟩ := List.exists_mem_of_ne_nil _ hchoice.nonempty
  exact ⟨i, mem_support_mix.2 ((hmem i).2 hi)⟩

/-- The mix of a part in order is one of fragments of its transfer. -/
theorem within_mix {part : Part} (h : part.flaw? = none) (hmessage : 1 ≤ part.messageLen) :
    part.mix.Within part.seqLen part.data.length := by
  obtain ⟨chosen, -, hchoice, hmem, -⟩ := part.exists_indexes (seqLen_pos h hmessage)
  refine ⟨?_, rfl⟩
  intro i hi
  exact hchoice.lt i ((hmem i).1 (mem_support_mix.1 hi))

end Part

namespace Decoder

/-! ### One part -/

theorem transferFor_eq_ok_iff {d : Decoder} {part : Part} {t : Transfer} :
    d.transferFor part = .ok t ↔
      part.flaw? = none ∧ t = part.transfer ∧
        (d.transfer = none ∨ d.transfer = some part.transfer) := by
  unfold transferFor
  cases hflaw : part.flaw? with
  | some refusal => simp
  | none =>
      cases htransfer : d.transfer with
      | none => simp [eq_comm]
      | some t' =>
          cases hdiff : t'.difference? part.transfer with
          | some parameter =>
              have hne : t' ≠ part.transfer := fun h => by
                rw [Transfer.difference?_eq_none_iff.2 h] at hdiff
                exact absurd hdiff (by simp)
              simp [hdiff, hne]
          | none =>
              obtain rfl := Transfer.difference?_eq_none_iff.1 hdiff
              simp [hdiff, eq_comm]

/-- What becomes of a part in order of the transfer in progress, if there is one: it is not looked into
after the end, panics, or is taken in. -/
theorem receive_eq {d : Decoder} {part : Part} (hflaw : part.flaw? = none)
    (hagree : d.transfer = none ∨ d.transfer = some part.transfer) :
    d.receive part =
      if d.isComplete then .ok d
      else if part.seqLen = 0 ∧ part.seqNum ≠ 0 then .error .panicked
      else .ok (d.accept part.transfer part.mix) := by
  rw [receive, transferFor_eq_ok_iff.2 ⟨hflaw, rfl, hagree⟩, Part.mix?_eq]
  dsimp only
  split_ifs <;> rfl

/-- Every other part is refused. -/
theorem exists_refused {d : Decoder} {part : Part}
    (h : ¬(part.flaw? = none ∧ (d.transfer = none ∨ d.transfer = some part.transfer))) :
    ∃ refusal, d.receive part = .error (.refused refusal) := by
  unfold receive
  cases htransfer : d.transferFor part with
  | error refusal => exact ⟨refusal, rfl⟩
  | ok t =>
      obtain ⟨hflaw, -, hagree⟩ := transferFor_eq_ok_iff.1 htransfer
      exact absurd ⟨hflaw, hagree⟩ h

/-- A part is accepted if it is in order and of the transfer in progress, if there is one, and if its
fragments can be chosen. It is taken in unless the transfer has ended. -/
theorem receive_eq_ok_iff {d d' : Decoder} {part : Part} :
    d.receive part = .ok d' ↔
      part.flaw? = none ∧ (d.transfer = none ∨ d.transfer = some part.transfer) ∧
        (d' = if d.isComplete then d else d.accept part.transfer part.mix) ∧
        (d.isComplete = false → part.seqLen = 0 → part.seqNum = 0) := by
  by_cases h : part.flaw? = none ∧ (d.transfer = none ∨ d.transfer = some part.transfer)
  · obtain ⟨hflaw, hagree⟩ := h
    rw [receive_eq hflaw hagree]
    split_ifs with hcomplete hpanic
    · simp [hflaw, hagree, hcomplete, eq_comm]
    · simp [hpanic, hcomplete]
    · simpa [hflaw, hagree, hcomplete, eq_comm] using fun _ => not_and_not_right.1 hpanic
  · obtain ⟨refusal, hrefused⟩ := exists_refused h
    rw [hrefused]
    exact ⟨fun hok => absurd hok (by simp), fun hok => absurd ⟨hok.1, hok.2.1⟩ h⟩

/-- A part in order of a message that is not empty is accepted in the transfer in progress. -/
theorem receive_eq_ok {d : Decoder} {part : Part} (hflaw : part.flaw? = none)
    (hmessage : 1 ≤ part.messageLen)
    (hagree : d.transfer = none ∨ d.transfer = some part.transfer) :
    d.receive part = .ok (if d.isComplete then d else d.accept part.transfer part.mix) :=
  receive_eq_ok_iff.2 ⟨hflaw, hagree, rfl, fun _ hlen =>
    absurd hlen (Part.seqLen_pos hflaw hmessage).ne'⟩

/-- What panics is a part in order of an empty message, in no fragments, that is not number zero. The
transfer in progress, if there is one, must be of this kind too, and not have ended. -/
theorem receive_eq_panicked_iff {d : Decoder} {part : Part} :
    d.receive part = .error .panicked ↔
      part.flaw? = none ∧ (d.transfer = none ∨ d.transfer = some part.transfer) ∧
        d.isComplete = false ∧ part.seqLen = 0 ∧ part.seqNum ≠ 0 := by
  by_cases h : part.flaw? = none ∧ (d.transfer = none ∨ d.transfer = some part.transfer)
  · obtain ⟨hflaw, hagree⟩ := h
    rw [receive_eq hflaw hagree]
    split_ifs with hcomplete hpanic
    · simp [hcomplete]
    · simp [hflaw, hagree, hcomplete, hpanic]
    · exact ⟨fun hok => absurd hok (by simp), fun hok => absurd hok.2.2.2 hpanic⟩
  · obtain ⟨refusal, hrefused⟩ := exists_refused h
    rw [hrefused]
    exact ⟨fun hok => absurd hok (by simp), fun hok => absurd ⟨hok.1, hok.2.1⟩ h⟩

/-- A part panics only if it is of no fragments. -/
theorem receive_ne_panicked {part : Part} (hlen : 0 < part.seqLen) (d : Decoder) :
    d.receive part ≠ .error .panicked := fun h =>
  hlen.ne' (receive_eq_panicked_iff.1 h).2.2.2.1

/-- A part with a flaw is refused for it, whatever the transfer in progress. -/
theorem receive_of_flaw {part : Part} {refusal : Refusal} (hflaw : part.flaw? = some refusal)
    (d : Decoder) : d.receive part = .error (.refused refusal) := by
  simp only [receive, transferFor, hflaw]

/-- A part in order is refused while another transfer is in progress. -/
theorem receive_of_foreign {d : Decoder} {part : Part} {t : Transfer} (hflaw : part.flaw? = none)
    (ht : d.transfer = some t) (hne : t ≠ part.transfer) :
    ∃ parameter, d.receive part = .error (.refused (.foreign parameter)) := by
  cases hdiff : t.difference? part.transfer with
  | none => exact absurd (Transfer.difference?_eq_none_iff.1 hdiff) hne
  | some parameter =>
      refine ⟨parameter, ?_⟩
      simp only [receive, transferFor, hflaw, ht, hdiff]

@[simp] theorem transfer_accept (d : Decoder) (t : Transfer) (m : Mix) :
    (d.accept t m).transfer = some t :=
  transfer_settle t _

/-- A decoder that has accepted a part is in the transfer of that part. -/
theorem transfer_receive {d d' : Decoder} {part : Part} (h : d.receive part = .ok d')
    (hd : d.isComplete = true → d.transfer ≠ none) : d'.transfer = some part.transfer := by
  obtain ⟨-, hagree, rfl, -⟩ := receive_eq_ok_iff.1 h
  split
  · rename_i hcomplete
    exact hagree.resolve_left (hd hcomplete)
  · exact transfer_accept _ _ _

/-- A predicate that reductions keep, and that the mix of the part satisfies, stays true of
everything stored. -/
theorem stores_receive {d d' : Decoder} {part : Part} {P : Mix → Prop}
    (h : d.receive part = .ok d') (hP : Mix.ReductionClosed P) (hd : ∀ x, d.Stores x → P x)
    (hpart : P part.mix) : ∀ x, d'.Stores x → P x := by
  obtain ⟨-, -, rfl, -⟩ := receive_eq_ok_iff.1 h
  split
  · exact hd
  · have hqueued : ∀ x, { d with
        transfer := some part.transfer
        queue := d.queue ++ [part.mix] : Decoder }.Stores x → P x := by
      refine Stores.of_places hd (fun _ _ h => Or.inl h) (fun x hx => hd x (.held hx)) ?_
      exact List.forall_mem_append.2
        ⟨fun x hx => hd x (.queued hx), List.forall_mem_singleton.2 hpart⟩
    have hsettled := stores_settle part.transfer hP hqueued
    exact Stores.of_places hsettled (fun _ _ h => Or.inl h) (fun x hx => hsettled x (.held hx))
      (fun x hx => hsettled x (.queued hx))

/-- A decoder that has not received anything stores nothing. -/
theorem not_stores_empty {x : Mix} : ¬empty.Stores x := not_stores_of_empty rfl rfl rfl

/-! ### Many parts -/

/-- The decoder after it was offered parts one after another. A refused part changes nothing, and one that
makes the program panic is passed over: no run goes on behind it. -/
def receiveAll (d : Decoder) : List Part → Decoder
  | [] => d
  | part :: parts =>
    match d.receive part with
    | .ok d' => d'.receiveAll parts
    | .error _ => d.receiveAll parts

/-- The parts among those offered that are accepted, in order. -/
def accepted (d : Decoder) : List Part → List Part
  | [] => []
  | part :: parts =>
    match d.receive part with
    | .ok d' => part :: d'.accepted parts
    | .error _ => d.accepted parts

/-- Parts can be offered in two goes. -/
theorem receiveAll_append (d : Decoder) (parts parts' : List Part) :
    d.receiveAll (parts ++ parts') = (d.receiveAll parts).receiveAll parts' := by
  induction parts generalizing d with
  | nil => rfl
  | cons part parts ih =>
    rw [List.cons_append, receiveAll, receiveAll]
    cases d.receive part with
    | error halt => exact ih d
    | ok d' => exact ih d'

/-- After the end, nothing changes. -/
theorem receiveAll_of_isComplete {d : Decoder} (h : d.isComplete = true) (parts : List Part) :
    d.receiveAll parts = d := by
  induction parts with
  | nil => rfl
  | cons part parts ih =>
    rw [receiveAll]
    cases hreceive : d.receive part with
    | error halt => exact ih
    | ok d' =>
        obtain ⟨-, -, rfl, -⟩ := receive_eq_ok_iff.1 hreceive
        rw [if_pos h]
        exact ih

/-- What holds of a decoder that has not received anything, and is kept by every accepted part,
holds after any sequence of parts. -/
theorem run_induction {motive : List Part → Decoder → Prop} (parts : List Part)
    (start : motive [] empty)
    (step : ∀ (before : List Part) (d : Decoder) (part : Part) (d' : Decoder), part ∈ parts →
      motive before d → d.receive part = .ok d' → motive (before ++ [part]) d') :
    motive (empty.accepted parts) (empty.receiveAll parts) := by
  -- `before` are the parts accepted so far, and `rest` are those still to be offered.
  have general (rest before : List Part) (d : Decoder) (hrest : ∀ part ∈ rest, part ∈ parts)
      (hd : motive before d) : motive (before ++ d.accepted rest) (d.receiveAll rest) := by
    induction rest generalizing before d with
    | nil =>
      rw [accepted, receiveAll, List.append_nil]
      exact hd
    | cons part rest ih =>
      obtain ⟨hpart, hrest⟩ := List.forall_mem_cons.1 hrest
      rw [accepted, receiveAll]
      cases hreceive : d.receive part with
      | error halt => exact ih before d hrest hd
      | ok d' =>
          have hstep := ih (before ++ [part]) d' hrest (step before d part d' hpart hd hreceive)
          rwa [List.append_assoc] at hstep
  exact general parts [] empty (fun _ h => h) start

/-- A transfer that has ended has parameters, and at least one fragment: it ended with the last. -/
theorem exists_transfer_of_isComplete (parts : List Part) :
    (empty.receiveAll parts).isComplete = true →
      ∃ t, (empty.receiveAll parts).transfer = some t ∧ 0 < t.seqLen := by
  refine run_induction (motive := fun _ d =>
    d.isComplete = true → ∃ t, d.transfer = some t ∧ 0 < t.seqLen) parts ?_ ?_
  · intro hcomplete
    exact absurd hcomplete (by simp [isComplete, empty])
  · intro _ d part d' _ hd hreceive hcomplete
    obtain ⟨-, -, rfl, -⟩ := receive_eq_ok_iff.1 hreceive
    cases hended : d.isComplete with
    | true =>
        rw [if_pos rfl]
        exact hd hended
    | false =>
        rw [hended, if_neg Bool.false_ne_true] at hcomplete
        rw [if_neg Bool.false_ne_true]
        have hrunning : d.outcome = none := by simpa [isComplete] using hended
        refine ⟨part.transfer, transfer_accept _ _ _, seqLen_pos_of_settle (t := part.transfer)
          (d := { d with transfer := some part.transfer, queue := d.queue ++ [part.mix] })
          hrunning ?_⟩
        simpa [isComplete, accept, Option.isSome_iff_ne_none] using hcomplete

theorem transfer_ne_none_of_isComplete (parts : List Part)
    (h : (empty.receiveAll parts).isComplete = true) : (empty.receiveAll parts).transfer ≠ none := by
  obtain ⟨t, ht, -⟩ := exists_transfer_of_isComplete parts h
  rw [ht]
  exact Option.some_ne_none t

/-- After any parts, a part is accepted if it is in order and of the transfer in progress, if there is one,
unless it panics. The transfer of a part of no fragments has not ended, so that such a part must have
number zero. -/
theorem exists_receive_eq_ok_iff {parts : List Part} {part : Part} :
    (∃ d', (empty.receiveAll parts).receive part = .ok d') ↔
      part.flaw? = none ∧ ((empty.receiveAll parts).transfer = none ∨
        (empty.receiveAll parts).transfer = some part.transfer) ∧
        (part.seqLen = 0 → part.seqNum = 0) := by
  constructor
  · intro h
    obtain ⟨d', h⟩ := h
    obtain ⟨hflaw, hagree, -, hnum⟩ := receive_eq_ok_iff.1 h
    refine ⟨hflaw, hagree, fun hlen => hnum (Bool.eq_false_iff.2 fun hcomplete => ?_) hlen⟩
    obtain ⟨t, ht, hpos⟩ := exists_transfer_of_isComplete parts hcomplete
    have hsame := hagree.resolve_left (by rw [ht]; exact Option.some_ne_none t)
    obtain rfl := Option.some.inj (ht.symm.trans hsame)
    exact hpos.ne' hlen
  · intro h
    obtain ⟨hflaw, hagree, hnum⟩ := h
    exact ⟨_, receive_eq_ok_iff.2 ⟨hflaw, hagree, rfl, fun _ => hnum⟩⟩

/-- All accepted parts belong to one transfer: the one in progress. -/
theorem transfer_of_mem_accepted {parts : List Part} {part : Part}
    (h : part ∈ empty.accepted parts) :
    (empty.receiveAll parts).transfer = some part.transfer := by
  -- A transfer that has ended has parameters, so a part that is accepted then shares them.
  refine (run_induction (motive := fun accepted d =>
    (d.isComplete = true → d.transfer ≠ none) ∧
      ∀ part ∈ accepted, d.transfer = some part.transfer) parts ⟨?_, by simp⟩ ?_).2 part h
  · intro hcomplete
    exact absurd hcomplete (by simp [isComplete, empty])
  · intro before d part d' _ h hreceive
    obtain ⟨hcomplete, hbefore⟩ := h
    have htransfer := transfer_receive hreceive hcomplete
    obtain ⟨-, hagree, rfl, -⟩ := receive_eq_ok_iff.1 hreceive
    refine ⟨fun _ => by rw [htransfer]; exact Option.some_ne_none _, fun p hp => ?_⟩
    rw [htransfer]
    rcases List.mem_append.1 hp with hp | hp
    · have hd := hbefore p hp
      rcases hagree with h | h
      · rw [hd] at h
        exact absurd h (Option.some_ne_none _)
      · rw [← h, hd]
    · rw [List.mem_singleton.1 hp]

/-- The first accepted part fixes the transfer. -/
theorem transfer_receiveAll (parts : List Part) :
    (empty.receiveAll parts).transfer = (empty.accepted parts).head?.map Part.transfer := by
  have hnone : empty.accepted parts = [] → empty.receiveAll parts = empty := by
    refine run_induction (motive := fun accepted d => accepted = [] → d = empty) parts
      (fun _ => rfl) ?_
    intro before d part d' _ _ _ h
    exact absurd h (by simp)
  cases haccepted : empty.accepted parts with
  | nil =>
      rw [hnone haccepted]
      rfl
  | cons part rest => exact transfer_of_mem_accepted (by simp [haccepted])

theorem flaw?_of_mem_accepted {d : Decoder} {parts : List Part} {part : Part}
    (h : part ∈ d.accepted parts) : part.flaw? = none := by
  induction parts generalizing d with
  | nil => exact absurd h List.not_mem_nil
  | cons p parts ih =>
    rw [accepted] at h
    split at h
    · rename_i d' hreceive
      rcases List.mem_cons.1 h with rfl | h
      · exact (receive_eq_ok_iff.1 hreceive).1
      · exact ih h
    · exact ih h

/-- All accepted parts have data of one length. -/
theorem exists_length_of_accepted (parts : List Part) :
    ∃ len, ∀ part ∈ empty.accepted parts, part.data.length = len := by
  cases htransfer : (empty.receiveAll parts).transfer with
  | none =>
      refine ⟨0, ?_⟩
      intro part hpart
      rw [transfer_of_mem_accepted hpart] at htransfer
      exact absurd htransfer (Option.some_ne_none _)
  | some t =>
      refine ⟨t.fragmentLen, ?_⟩
      intro part hpart
      rw [transfer_of_mem_accepted hpart] at htransfer
      rw [← Option.some.inj htransfer]
      rfl

theorem accepted_sublist (d : Decoder) (parts : List Part) : (d.accepted parts).Sublist parts := by
  induction parts generalizing d with
  | nil => exact List.Sublist.refl _
  | cons part parts ih =>
    rw [accepted]
    split
    · exact (ih _).cons_cons part
    · exact (ih d).cons part

theorem mem_of_mem_accepted {d : Decoder} {parts : List Part} {part : Part}
    (h : part ∈ d.accepted parts) : part ∈ parts :=
  (accepted_sublist d parts).subset h

end Decoder

end UrReplay.Fountain
