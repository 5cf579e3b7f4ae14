import UrReplay.Fountain.Decoder
import UrReplay.Proofs.Fountain.Mix
/-!
# UrReplay.Proofs.Fountain.Step

What one step of the reduction loop can do.

* `Processed` lists the six ways of processing a mix from the queue, with the guard of each, and
  `processed` says that `process` always takes one of them. Invariants of the loop are proved by
  cases on it, and `settle_induction` carries them through the loop.
* `Stores` says which mixes a decoder has in any of its three places. Whatever a step stores is made
  from what was stored by reductions, so a predicate that reductions keep stays true of all of it
  (`stores_processed`).
-/

namespace UrReplay.Fountain.Decoder

open Mix (ReductionClosed)

/-! ### Known fragments -/

/-- The indexes of the recovered fragments, as a finite set. -/
def known (d : Decoder) : Finset Nat := d.recovered.keys.toFinset

@[simp] theorem mem_known {d : Decoder} {i : Nat} : i ∈ d.known ↔ i ∈ d.recovered := by
  simp [known]

theorem mem_known_iff_exists {d : Decoder} {i : Nat} :
    i ∈ d.known ↔ ∃ data, d.recovered[i]? = some data := by
  rw [mem_known, Std.TreeMap.mem_iff_isSome_getElem?, Option.isSome_iff_exists]

theorem card_known (d : Decoder) : d.known.card = d.recovered.size := by
  rw [known, List.toFinset_card_of_nodup Std.TreeMap.nodup_keys, Std.TreeMap.length_keys]

/-- The decoder with one more fragment recovered, before anything follows from it. -/
def withFragment (d : Decoder) (i : Nat) (data : Bytes) : Decoder :=
  { d with recovered := d.recovered.insert i data }

theorem known_withFragment (d : Decoder) (i : Nat) (data : Bytes) :
    (d.withFragment i data).known = insert i d.known := by
  ext j
  rw [mem_known, withFragment, Std.TreeMap.mem_insert, Std.LawfulEqCmp.compare_eq_iff_eq,
    Finset.mem_insert, mem_known, eq_comm]

theorem getElem?_withFragment (d : Decoder) (i j : Nat) (data : Bytes) :
    (d.withFragment i data).recovered[j]? = if i = j then some data else d.recovered[j]? := by
  simp [withFragment, Std.TreeMap.getElem?_insert]

/-! ### Everything a decoder has -/

/-- The mixes in the three places of a decoder; a recovered fragment counts as a mix of itself. -/
inductive Stores (d : Decoder) : Mix → Prop
  | recovered {i : Nat} {data : Bytes} (h : d.recovered[i]? = some data) :
      Stores d (.ofFragment i data)
  | held {m : Mix} (h : m ∈ d.held) : Stores d m
  | queued {m : Mix} (h : m ∈ d.queue) : Stores d m

/-- With all three places empty, nothing is stored. -/
theorem not_stores_of_empty {d : Decoder} {x : Mix} (hrecovered : d.recovered = ∅)
    (hheld : d.held = []) (hqueue : d.queue = []) : ¬d.Stores x := by
  intro h
  cases h with
  | recovered h => exact absurd h (by simp [hrecovered])
  | held h => exact absurd (hheld ▸ h) List.not_mem_nil
  | queued h => exact absurd (hqueue ▸ h) List.not_mem_nil

/-- Going from `d` to `d'`, everything stored is old or satisfies the predicate. -/
theorem Stores.of_places {d d' : Decoder} {P : Mix → Prop} (hd : ∀ x, d.Stores x → P x)
    (hrecovered : ∀ i data, d'.recovered[i]? = some data →
      d.recovered[i]? = some data ∨ P (.ofFragment i data))
    (hheld : ∀ x ∈ d'.held, P x) (hqueue : ∀ x ∈ d'.queue, P x) : ∀ x, d'.Stores x → P x := by
  intro x hx
  cases hx with
  | recovered h =>
      rcases hrecovered _ _ h with h | h
      · exact hd _ (.recovered h)
      · exact h
  | held h => exact hheld x h
  | queued h => exact hqueue x h

theorem stores_withFragment {d : Decoder} {P : Mix → Prop} (hd : ∀ x, d.Stores x → P x) {i : Nat}
    {data : Bytes} (hi : P (.ofFragment i data)) : ∀ x, (d.withFragment i data).Stores x → P x := by
  refine Stores.of_places hd ?_ (fun x hx => hd x (.held hx))
    (fun x hx => hd x (.queued hx))
  intro j data' hj
  rw [getElem?_withFragment] at hj
  split at hj
  · rename_i hij
    subst hij
    obtain rfl := Option.some.inj hj
    exact Or.inr hi
  · exact Or.inl hj

/-! ### Reducing what is held -/

theorem mem_held_reduceHeld {d : Decoder} {new x : Mix} (h : x ∈ (d.reduceHeld new).held) :
    ∃ m ∈ d.held, m.reduceBy new = x ∧ x.isSingle = false := by
  obtain ⟨hx, hsingle⟩ := List.mem_filter.1 (Mix.mem_of_mem_collect h)
  obtain ⟨m, hm, rfl⟩ := List.mem_map.1 hx
  exact ⟨m, hm, rfl, by simpa using hsingle⟩

theorem mem_queue_reduceHeld {d : Decoder} {new x : Mix} :
    x ∈ (d.reduceHeld new).queue ↔
      x ∈ d.queue ∨ ∃ m ∈ d.held, m.reduceBy new = x ∧ x.isSingle = true := by
  simp only [reduceHeld, List.mem_append, List.mem_filter, List.mem_map]
  constructor
  · intro h
    rcases h with hx | ⟨⟨m, hm, hmx⟩, hsingle⟩
    · exact Or.inl hx
    · exact Or.inr ⟨m, hm, hmx, hsingle⟩
  · intro h
    rcases h with hx | ⟨m, hm, hmx, hsingle⟩
    · exact Or.inl hx
    · exact Or.inr ⟨⟨m, hm, hmx⟩, hsingle⟩

/-- What becomes of a held mix is held or queued. -/
theorem exists_mem_reduceHeld {d : Decoder} {m : Mix} (hm : m ∈ d.held) (new : Mix) :
    ∃ x, (x ∈ (d.reduceHeld new).held ∨ x ∈ (d.reduceHeld new).queue) ∧
      x.support = (m.reduceBy new).support := by
  have hmap : m.reduceBy new ∈ d.held.map (·.reduceBy new) := List.mem_map_of_mem hm
  cases hsingle : (m.reduceBy new).isSingle with
  | true => exact ⟨_, Or.inr (mem_queue_reduceHeld.2 (Or.inr ⟨m, hm, rfl, hsingle⟩)), rfl⟩
  | false =>
      have hfilter : m.reduceBy new ∈ (d.held.map (·.reduceBy new)).filter (!·.isSingle) :=
        List.mem_filter.2 ⟨hmap, by simp [hsingle]⟩
      obtain ⟨x, hx, hxm⟩ := Mix.exists_mem_collect hfilter
      exact ⟨x, Or.inl hx, hxm⟩

/-- What a reduction adds to the queue are single fragments. -/
theorem countP_queue_reduceHeld (d : Decoder) (new : Mix) :
    (d.reduceHeld new).queue.countP (!·.isSingle) = d.queue.countP (!·.isSingle) := by
  have hsingles : ((d.held.map (·.reduceBy new)).filter (·.isSingle)).countP (!·.isSingle) = 0 := by
    rw [List.countP_eq_zero]
    intro x hx
    simpa using (List.mem_filter.1 hx).2
  rw [reduceHeld, List.countP_append, hsingles, Nat.add_zero]

theorem nodup_held_reduceHeld (d : Decoder) (new : Mix) :
    ((d.reduceHeld new).held.map Mix.support).Nodup :=
  Mix.nodup_collect _

theorem length_held_reduceHeld_le (d : Decoder) (new : Mix) :
    (d.reduceHeld new).held.length ≤ d.held.length := by
  refine (Mix.length_collect_le _).trans ((List.length_filter_le _ _).trans ?_)
  rw [List.length_map]

theorem stores_reduceHeld {d : Decoder} {P : Mix → Prop} (hP : ReductionClosed P)
    (hd : ∀ x, d.Stores x → P x) {new : Mix} (hnew : P new) :
    ∀ x, (d.reduceHeld new).Stores x → P x := by
  refine Stores.of_places hd (fun i data h => Or.inl h) ?_ ?_
  · intro x hx
    obtain ⟨m, hm, rfl, -⟩ := mem_held_reduceHeld hx
    exact hP.reduceBy (hd m (.held hm)) hnew
  · intro x hx
    rcases mem_queue_reduceHeld.1 hx with hx | ⟨m, hm, rfl, -⟩
    · exact hd x (.queued hx)
    · exact hP.reduceBy (hd m (.held hm)) hnew

/-! ### Reducing an arriving mix -/

/-- The recovered fragments that a mix contains, from the least index on. -/
def fragmentsIn (d : Decoder) (m : Mix) : List Mix :=
  m.indexes.toList.filterMap fun i => d.recovered[i]?.map (Mix.ofFragment i)

theorem mem_fragmentsIn {d : Decoder} {m x : Mix} :
    x ∈ d.fragmentsIn m ↔
      ∃ i ∈ m.support, ∃ data, d.recovered[i]? = some data ∧ Mix.ofFragment i data = x := by
  simp only [fragmentsIn, List.mem_filterMap, Option.map_eq_some_iff, Mix.support,
    IndexSet.mem_toFinset, IndexSet.mem_def]

theorem withoutRecovered_eq (d : Decoder) (m : Mix) :
    d.withoutRecovered m = (d.fragmentsIn m).foldl Mix.reduceBy m := by
  unfold withoutRecovered fragmentsIn
  -- The list of indexes stays that of the mix at the start.
  generalize m.indexes.toList = is
  induction is generalizing m with
  | nil => rfl
  | cons i is ih =>
    rw [List.foldl_cons, List.filterMap_cons, ih]
    cases d.recovered[i]? <;> rfl

/-- A mix without what is recovered and, as far as possible, without what is held. -/
def reduced (d : Decoder) (m : Mix) : Mix := d.withoutHeld (d.withoutRecovered m)

theorem reduced_of_closed {d : Decoder} {P : Mix → Prop} (hP : ReductionClosed P)
    (hd : ∀ x, d.Stores x → P x) {m : Mix} (hm : P m) : P (d.reduced m) := by
  have hrecovered : P (d.withoutRecovered m) := by
    rw [withoutRecovered_eq]
    refine hP.foldl hm ?_
    intro x hx
    obtain ⟨i, -, data, h, rfl⟩ := mem_fragmentsIn.1 hx
    exact hd _ (.recovered h)
  exact hP.foldl hrecovered fun x hx => hd x (.held hx)

/-! ### One step -/

/-- What processing a mix `m` of the transfer `t` makes of a decoder `d`. -/
inductive Processed (d : Decoder) (t : Transfer) (m : Mix) : Decoder → Prop
  /-- The fragment is recovered already. -/
  | known {i : Nat} (hsingle : m = .ofFragment i m.data) (hi : i ∈ d.known) : Processed d t m d
  /-- The fragment is the last one. -/
  | last {i : Nat} (hsingle : m = .ofFragment i m.data) (hi : i ∉ d.known)
      (hsize : (d.withFragment i m.data).recovered.size = t.seqLen) :
      Processed d t m ((d.withFragment i m.data).finish t)
  /-- The fragment is new, and others are missing. -/
  | fragment {i : Nat} (hsingle : m = .ofFragment i m.data) (hi : i ∉ d.known)
      (hsize : (d.withFragment i m.data).recovered.size ≠ t.seqLen) :
      Processed d t m ((d.withFragment i m.data).reduceHeld (.ofFragment i m.data))
  /-- A mix of the same fragments is held. -/
  | repeated (hmixed : m.isSingle = false) {x : Mix} (hx : x ∈ d.held)
      (hxm : x.support = m.support) : Processed d t m d
  /-- The mix comes down to one fragment. -/
  | resolved (hmixed : m.isSingle = false) (hsingle : (d.reduced m).isSingle = true) :
      Processed d t m { d with queue := d.queue ++ [d.reduced m] }
  /-- The mix stays one of two or more fragments, and is held if there is room. -/
  | kept (hmixed : m.isSingle = false) (hmixed' : (d.reduced m).isSingle = false) :
      Processed d t m ((d.reduceHeld (d.reduced m)).hold (d.reduced m))

/-- Processing takes one of the six ways. -/
theorem processed (d : Decoder) (t : Transfer) (m : Mix) : Processed d t m (d.process t m) := by
  unfold process
  split
  · rename_i i hsingle
    rw [Mix.single?_eq_some_iff] at hsingle
    unfold addFragment
    split
    · rename_i hi
      exact .known hsingle (mem_known.2 hi)
    · rename_i hi
      have hi : i ∉ d.known := fun h => hi (mem_known.1 h)
      dsimp only
      split
      · rename_i hsize
        exact .last hsingle hi hsize
      · rename_i hsize
        exact .fragment hsingle hi hsize
  · rename_i hmixed
    rw [Mix.single?_eq_none_iff] at hmixed
    unfold addMix
    split
    · rename_i hany
      obtain ⟨x, hx, hxm⟩ := List.any_eq_true.1 hany
      exact .repeated hmixed hx (Mix.support_inj.2 (by simpa using hxm))
    · dsimp only
      split
      · rename_i hsingle
        exact .resolved hmixed hsingle
      · rename_i hmixed'
        exact .kept hmixed (Bool.eq_false_iff.2 hmixed')

theorem mem_held_hold {d : Decoder} {m x : Mix} (h : x ∈ (d.hold m).held) : x = m ∨ x ∈ d.held := by
  unfold hold at h
  split at h
  · exact Mix.mem_of_mem_upsert h
  · exact Or.inr h

@[simp] theorem recovered_hold (d : Decoder) (m : Mix) : (d.hold m).recovered = d.recovered := by
  unfold hold
  split <;> rfl

@[simp] theorem queue_hold (d : Decoder) (m : Mix) : (d.hold m).queue = d.queue := by
  unfold hold
  split <;> rfl

@[simp] theorem outcome_hold (d : Decoder) (m : Mix) : (d.hold m).outcome = d.outcome := by
  unfold hold
  split <;> rfl

@[simp] theorem transfer_hold (d : Decoder) (m : Mix) : (d.hold m).transfer = d.transfer := by
  unfold hold
  split <;> rfl

@[simp] theorem known_finish (d : Decoder) (t : Transfer) : (d.finish t).known = d.known := rfl

@[simp] theorem known_reduceHeld (d : Decoder) (new : Mix) : (d.reduceHeld new).known = d.known :=
  rfl

@[simp] theorem known_hold (d : Decoder) (m : Mix) : (d.hold m).known = d.known := by
  rw [known, known, recovered_hold]

/-- A predicate that reductions keep stays true of everything stored. -/
theorem stores_processed {d d' : Decoder} {t : Transfer} {m : Mix} {P : Mix → Prop}
    (h : Processed d t m d') (hP : ReductionClosed P) (hd : ∀ x, d.Stores x → P x) (hm : P m) :
    ∀ x, d'.Stores x → P x := by
  cases h with
  | known _ _ => exact hd
  | last hsingle _ _ =>
      -- The end empties the queue and leaves the other two places.
      rw [hsingle] at hm
      have hstores := stores_withFragment hd hm
      exact Stores.of_places hstores (fun _ _ h => Or.inl h) (fun x hx => hstores x (.held hx))
        (fun x hx => absurd hx List.not_mem_nil)
  | fragment hsingle _ _ =>
      rw [hsingle] at hm
      exact stores_reduceHeld hP (stores_withFragment hd hm) hm
  | repeated _ _ _ => exact hd
  | resolved _ _ =>
      refine Stores.of_places hd (fun _ _ h => Or.inl h) (fun x hx => hd x (.held hx)) ?_
      intro x hx
      rcases List.mem_append.1 hx with hx | hx
      · exact hd x (.queued hx)
      · obtain rfl := List.mem_singleton.1 hx
        exact reduced_of_closed hP hd hm
  | kept _ _ =>
      have hreduced := reduced_of_closed hP hd hm
      have hstores := stores_reduceHeld hP hd hreduced
      refine Stores.of_places hstores (fun _ _ h => Or.inl (by simpa using h)) ?_ ?_
      · intro x hx
        rcases mem_held_hold hx with rfl | hx
        · exact hreduced
        · exact hstores x (.held hx)
      · intro x hx
        exact hstores x (.queued (by simpa using hx))

theorem transfer_processed {d d' : Decoder} {t : Transfer} {m : Mix} (h : Processed d t m d') :
    d'.transfer = d.transfer := by
  cases h with
  | known _ _ => rfl
  | last _ _ _ => rfl
  | fragment _ _ _ => rfl
  | repeated _ _ _ => rfl
  | resolved _ _ => rfl
  | kept _ _ => exact transfer_hold _ _

@[simp] theorem received_hold (d : Decoder) (m : Mix) : (d.hold m).received = d.received := by
  unfold hold
  split <;> rfl

theorem received_processed {d d' : Decoder} {t : Transfer} {m : Mix} (h : Processed d t m d') :
    d'.received = d.received := by
  cases h with
  | known _ _ => rfl
  | last _ _ _ => rfl
  | fragment _ _ _ => rfl
  | repeated _ _ _ => rfl
  | resolved _ _ => rfl
  | kept _ _ => exact received_hold _ _

/-! ### The loop -/

theorem settle_of_isComplete {d : Decoder} (h : d.isComplete = true) (t : Transfer) :
    d.settle t = d := by
  rw [settle, if_pos h]

theorem settle_of_queue_eq_nil {d : Decoder} (h : d.queue = []) (t : Transfer) :
    d.settle t = d := by
  rw [settle]
  split
  · rfl
  · split
    · rfl
    · rename_i m rest hqueue
      rw [h] at hqueue
      exact absurd hqueue.symm (List.cons_ne_nil m rest)

theorem settle_of_queue_eq_cons {d : Decoder} {m : Mix} {rest : List Mix}
    (hrunning : d.isComplete = false) (h : d.queue = m :: rest) (t : Transfer) :
    d.settle t = ({ d with queue := rest }.process t m).settle t := by
  rw [settle, hrunning, if_neg Bool.false_ne_true]
  split
  · rename_i hqueue
    rw [h] at hqueue
    exact absurd hqueue (List.cons_ne_nil m rest)
  · rename_i hqueue
    obtain ⟨rfl, rfl⟩ := List.cons.inj (h.symm.trans hqueue)
    rfl

/-- What one step of the loop keeps, the loop keeps. -/
theorem settle_induction {motive : Decoder → Prop} (t : Transfer)
    (step : ∀ (d : Decoder) (m : Mix) (rest : List Mix), d.outcome = none → d.queue = m :: rest →
      motive d → motive ({ d with queue := rest }.process t m))
    (d : Decoder) (hd : motive d) : motive (d.settle t) := by
  fun_induction settle d t with
  | case1 d hcomplete => exact hd
  | case2 d hcomplete hqueue => exact hd
  | case3 d hcomplete m rest hqueue _ ih =>
      have hrunning : d.outcome = none := by simpa [isComplete] using hcomplete
      exact ih (step d m rest hrunning hqueue hd)

theorem transfer_settle (t : Transfer) (d : Decoder) : (d.settle t).transfer = d.transfer :=
  settle_induction (motive := fun d' => d'.transfer = d.transfer) t
    (fun _ m _ _ _ h => (transfer_processed (processed _ t m)).trans h) d rfl

theorem received_settle (t : Transfer) (d : Decoder) : (d.settle t).received = d.received :=
  settle_induction (motive := fun d' => d'.received = d.received) t
    (fun _ m _ _ _ h => (received_processed (processed _ t m)).trans h) d rfl

/-- A step that ends a transfer recovers the last of its fragments, so it has one. -/
theorem seqLen_pos_of_processed {d d' : Decoder} {t : Transfer} {m : Mix} (h : Processed d t m d')
    (hrunning : d.outcome = none) (hended : d'.outcome ≠ none) : 0 < t.seqLen := by
  cases h with
  | known _ _ => exact absurd hrunning hended
  | @last i _ _ hsize =>
      rw [← hsize, ← card_known, known_withFragment]
      exact Finset.card_pos.2 (Finset.insert_nonempty i _)
  | fragment _ _ _ => exact absurd hrunning hended
  | repeated _ _ _ => exact absurd hrunning hended
  | resolved _ _ => exact absurd hrunning hended
  | kept _ _ =>
      rw [outcome_hold] at hended
      exact absurd hrunning hended

/-- The loop ends only transfers that have a fragment. -/
theorem seqLen_pos_of_settle {t : Transfer} {d : Decoder} (hrunning : d.outcome = none)
    (hended : (d.settle t).outcome ≠ none) : 0 < t.seqLen :=
  settle_induction (motive := fun d => d.outcome ≠ none → 0 < t.seqLen) t
    (fun d m rest hrunning _ _ =>
      seqLen_pos_of_processed (d := { d with queue := rest }) (processed _ t m) hrunning)
    d (absurd hrunning) hended

/-- A predicate that reductions keep stays true of everything stored. -/
theorem stores_settle {d : Decoder} {P : Mix → Prop} (t : Transfer) (hP : ReductionClosed P)
    (hd : ∀ x, d.Stores x → P x) : ∀ x, (d.settle t).Stores x → P x :=
  settle_induction (motive := fun d => ∀ x, d.Stores x → P x) t
    (fun d m rest _ hqueue hd => by
      have hmixes (x : Mix) (hx : x ∈ m :: rest) : P x := hd x (.queued (hqueue ▸ hx))
      obtain ⟨hm, hrest⟩ := List.forall_mem_cons.1 hmixes
      refine stores_processed (processed _ _ m) hP ?_ hm
      exact Stores.of_places hd (fun _ _ h => Or.inl h) (fun x hx => hd x (.held hx)) hrest)
    d hd

/-- The loop stops when the transfer has ended or the queue is empty. -/
theorem settle_exit (t : Transfer) (d : Decoder) :
    (d.settle t).outcome ≠ none ∨ (d.settle t).queue = [] := by
  fun_induction settle d t with
  | case1 d hcomplete =>
      left
      intro h
      simp [isComplete, h] at hcomplete
  | case2 d _ hqueue => exact Or.inr hqueue
  | case3 _ _ _ _ _ _ ih => exact ih

end UrReplay.Fountain.Decoder
