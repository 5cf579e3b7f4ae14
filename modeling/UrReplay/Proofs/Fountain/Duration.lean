import UrReplay.Proofs.Fountain.Count
import UrReplay.Proofs.Fountain.Invariant
/-!
# UrReplay.Proofs.Fountain.Duration

How long the reduction loop runs. `Iterates` counts its iterations, and `turnsLeft` bounds the ones that
are still to come: each takes a mix from the queue, and a mix is taken as one of two or more fragments at
most once, and as a single fragment at most once. A held mix has had the first of these turns already. So
a part that finds `h` mixes held keeps the loop busy for `h + 2` iterations at most (`receive_iterates`).
-/

namespace UrReplay.Fountain.Decoder

variable {d d' : Decoder} {t : Transfer} {m : Mix} {part : Part}

/-! ### Iterations -/

/-- The loop gets from one decoder to another in a number of iterations, and stops there. Each of them
processes a mix; that the loop finds the queue empty and stops is not counted. -/
inductive Iterates (t : Transfer) : Nat → Decoder → Decoder → Prop
  | stop {d : Decoder} (h : d.isComplete = true ∨ d.queue = []) : Iterates t 0 d d
  | step {n : Nat} {d d' : Decoder} {m : Mix} {rest : List Mix} (hrunning : d.isComplete = false)
      (hqueue : d.queue = m :: rest) (h : Iterates t n ({ d with queue := rest }.process t m) d') :
      Iterates t (n + 1) d d'

/-- How often mixes may still be taken from the queue: each queued one now, a queued one of two or more
fragments once again when a single fragment is left of it, and a held one only then. -/
def turnsLeft (d : Decoder) : Nat :=
  d.held.length + d.queue.length + d.queue.countP (!·.isSingle)

theorem turnsLeft_cons (d : Decoder) (m : Mix) :
    { d with queue := m :: d.queue : Decoder }.turnsLeft =
      d.turnsLeft + if m.isSingle then 1 else 2 := by
  cases hsingle : m.isSingle <;> simp [turnsLeft, hsingle] <;> omega

theorem turnsLeft_append (d : Decoder) (m : Mix) :
    { d with queue := d.queue ++ [m] : Decoder }.turnsLeft =
      d.turnsLeft + if m.isSingle then 1 else 2 := by
  cases hsingle : m.isSingle <;> simp [turnsLeft, List.countP_append, hsingle] <;> omega

/-- A held mix that goes to the queue is a single fragment, and takes with it the turn that it had left. -/
theorem turnsLeft_reduceHeld_le (d : Decoder) (new : Mix) :
    (d.reduceHeld new).turnsLeft ≤ d.turnsLeft := by
  have hstored : (d.reduceHeld new).stored ≤ d.stored := stored_reduceHeld_le d new
  have hrecovered : (d.reduceHeld new).recovered = d.recovered := rfl
  rw [stored, stored, hrecovered] at hstored
  rw [turnsLeft, turnsLeft, countP_queue_reduceHeld]
  omega

theorem turnsLeft_hold_le (d : Decoder) (m : Mix) : (d.hold m).turnsLeft ≤ d.turnsLeft + 1 := by
  have hstored := stored_hold_le d m
  rw [stored, stored, recovered_hold, queue_hold] at hstored
  rw [turnsLeft, turnsLeft, queue_hold]
  omega

/-- Every iteration uses up a turn. -/
theorem turnsLeft_processed_lt (h : Processed d t m d') :
    d'.turnsLeft < { d with queue := m :: d.queue : Decoder }.turnsLeft := by
  rw [turnsLeft_cons]
  have hturn : 0 < if m.isSingle then 1 else 2 := by split <;> omega
  cases h with
  | known _ _ => exact Nat.lt_add_of_pos_right hturn
  | @last i _ _ _ =>
      -- The end empties the queue.
      have hfinish : ((d.withFragment i m.data).finish t).turnsLeft = d.held.length := rfl
      rw [hfinish, turnsLeft]
      omega
  | @fragment i _ _ _ =>
      have hreduce := turnsLeft_reduceHeld_le (d.withFragment i m.data) (.ofFragment i m.data)
      exact Nat.lt_of_le_of_lt hreduce (Nat.lt_add_of_pos_right hturn)
  | repeated _ _ _ => exact Nat.lt_add_of_pos_right hturn
  | resolved hmixed hsingle =>
      rw [turnsLeft_append, hmixed, hsingle]
      exact Nat.lt_succ_self _
  | kept hmixed _ =>
      have hreduce := turnsLeft_reduceHeld_le d (d.reduced m)
      have hhold := turnsLeft_hold_le (d.reduceHeld (d.reduced m)) (d.reduced m)
      rw [hmixed, if_neg Bool.false_ne_true]
      omega

/-- The loop stops before all turns are used up. -/
theorem iterates_settle (t : Transfer) (d : Decoder) :
    ∃ n ≤ d.turnsLeft, Iterates t n d (d.settle t) := by
  fun_induction settle d t with
  | case1 d hcomplete => exact ⟨0, Nat.zero_le _, .stop (Or.inl hcomplete)⟩
  | case2 d _ hqueue => exact ⟨0, Nat.zero_le _, .stop (Or.inr hqueue)⟩
  | case3 d hcomplete m rest hqueue _ ih =>
      obtain ⟨n, hn, hiterates⟩ := ih
      have hturn := turnsLeft_processed_lt (processed { d with queue := rest } t m)
      rw [← hqueue] at hturn
      exact ⟨n + 1, hn.trans_lt hturn, .step (Bool.eq_false_iff.2 hcomplete) hqueue hiterates⟩

/-! ### The queue at the end -/

/-- A step that ends the transfer empties the queue. -/
theorem queue_processed (h : Processed d t m d') (hd : d.outcome = none) :
    d'.outcome ≠ none → d'.queue = [] := by
  cases h with
  | known _ _ => exact fun hended => absurd hd hended
  | last _ _ _ => exact fun _ => rfl
  | fragment _ _ _ => exact fun hended => absurd hd hended
  | repeated _ _ _ => exact fun hended => absurd hd hended
  | resolved _ _ => exact fun hended => absurd hd hended
  | kept _ _ =>
      intro hended
      rw [outcome_hold] at hended
      exact absurd hd hended

/-- Whether the loop runs out of mixes or ends the transfer, it leaves nothing queued. -/
theorem queue_settle (t : Transfer) (hd : d.outcome = none) : (d.settle t).queue = [] := by
  have hended := settle_induction (motive := fun d => d.outcome ≠ none → d.queue = []) t
    (fun d m rest hrunning _ _ => queue_processed (processed { d with queue := rest } t m) hrunning)
    d (fun hended => absurd hd hended)
  exact (settle_exit t d).elim hended id

/-! ### One part -/

/-- The loop is short. When a part is accepted by a decoder in a coherent state, the loop stops after at
most two iterations more than there are mixes held, so after at most 258, and leaves nothing queued. Once
the transfer has ended, it is not entered. -/
theorem receive_iterates (d d' : Decoder) (part : Part) (hd : Coherent d)
    (h : d.receive part = .ok d') :
    (d.isComplete = true → d' = d ∧ d'.queue = []) ∧
      (d.isComplete = false → ∃ n settled, Iterates part.transfer n (d.queued part) settled ∧
        n ≤ d.held.length + 2 ∧ d.held.length + 2 ≤ 258 ∧ settled.queue = [] ∧
        d' = { settled with received := d.received + 1 }) := by
  obtain ⟨-, -, rfl, -⟩ := receive_eq_ok_iff.1 h
  refine ⟨?_, ?_⟩
  · intro hcomplete
    rw [hcomplete, if_pos rfl]
    exact ⟨rfl, hd.queue⟩
  · intro hrunning
    obtain ⟨n, hn, hiterates⟩ := iterates_settle part.transfer (d.queued part)
    refine ⟨n, (d.queued part).settle part.transfer, hiterates, hn.trans ?_,
      Nat.add_le_add_right hd.few 2, queue_settle part.transfer ?_, ?_⟩
    · -- Only the part is queued, and it has two turns at most.
      have hturns : (d.queued part).turnsLeft = d.turnsLeft + if part.mix.isSingle then 1 else 2 :=
        turnsLeft_append d part.mix
      rw [hturns, turnsLeft, hd.queue, List.length_nil, List.countP_nil]
      split <;> omega
    · rw [isComplete, Option.isSome_eq_false_iff, Option.isNone_iff_eq_none] at hrunning
      exact hrunning
    · rw [hrunning, if_neg Bool.false_ne_true, accept_eq]

/-- A mix of two fragments is held, and one of them arrives. It has its turn, and then the other one. -/
theorem receive_iterates_two_fragments :
    let d : Decoder := { ofTransfer ⟨3, 3, 0, 1⟩ with held := [⟨⟨[0, 1], by decide⟩, [0x17]⟩] }
    let part : Part := ⟨1, 3, 3, 0, [0x2a]⟩
    Coherent d ∧ d.receive part = .ok (d.accept part.transfer part.mix) ∧
      ∃ n settled, Iterates part.transfer n (d.queued part) settled ∧ n ≤ 3 ∧ settled.queue = [] := by
  intro d part
  have hd : Coherent d :=
    coherent_holding (by decide) (List.forall_mem_singleton.2 ⟨by decide, by decide, rfl⟩)
      (List.nodup_singleton _) (by decide)
  have hreceive : d.receive part = .ok (d.accept part.transfer part.mix) :=
    receive_eq_ok (by decide) (by decide) (Or.inr rfl)
  obtain ⟨n, settled, hiterates, hn, -, hqueue, -⟩ :=
    (receive_iterates d _ part hd hreceive).2 rfl
  exact ⟨hd, hreceive, n, settled, hiterates, hn, hqueue⟩

end UrReplay.Fountain.Decoder
