import UrReplay.Proofs.Fountain.Peeling
/-!
# UrReplay.Proofs.Fountain.Order

What the order in which mixes arrive can change.

A held mix is reduced by what is new, and is not compared again with the other held ones. So two
orders of the same mixes need not recover the same fragments (`order_matters`). But every order stays
between two bounds that do not depend on it (`feedAll_perm`): it recovers what plain peeling does
(`Mix.Peels`), and no index that repeated reductions do not reach (`Mix.Reached`). Where the bounds
meet, the order does not matter.

How a transfer stands is a matter of what is recovered, because it ends with the last fragment
(`Paused.outcome_eq`). So orders that recover the same fragments also end in the same way.
-/

namespace UrReplay.Fountain

/-! ### What reductions reach -/

namespace Mix

variable {ms ms' : List Mix}

/-- The index sets that are reached by taking index sets out of others which strictly contain them,
starting from those of mixes. -/
inductive Reached (ms : List Mix) : Finset Nat → Prop
  | given {m : Mix} (hm : m ∈ ms) : Reached ms m.support
  | reduced {s u : Finset Nat} (hs : Reached ms s) (hu : Reached ms u) (h : u ⊂ s) :
      Reached ms (s \ u)

theorem Reached.mono {s : Finset Nat} (h : Reached ms s) (hsub : ms ⊆ ms') : Reached ms' s := by
  induction h with
  | given hm => exact .given (hsub hm)
  | reduced _ _ hlt hs hu => exact .reduced hs hu hlt

theorem reductionClosed_reached (ms : List Mix) : ReductionClosed fun m => Reached ms m.support := by
  intro m other hm hother h
  rw [support_reduceBy_of_ssubset h]
  exact .reduced hm hother h

theorem Peels.mono {known : Finset Nat} (h : Peels ms known) (hsub : ms ⊆ ms') :
    Peels ms' known := by
  induction h with
  | start => exact .start
  | solve _ hm hi ih => exact .solve ih (hsub hm) hi

end Mix

namespace Decoder

variable {d d' : Decoder} {t : Transfer} {m : Mix} {ms ms' : List Mix} {table : Nat → Bytes}

/-! ### How a transfer stands -/

/-- A transfer that is paused has ended if and only if every fragment is recovered. -/
theorem Paused.outcome_eq (h : Paused t d) :
    d.outcome = if d.known.card = t.seqLen then some (d.verdict t) else none := by
  cases h with
  | running h _ => rw [h.outcome, if_neg h.missing.ne]
  | finished h => rw [h.outcome, if_pos h.full]

theorem known_congr (h : ∀ i : Nat, d.recovered[i]? = d'.recovered[i]?) : d.known = d'.known := by
  ext i
  rw [mem_known_iff_exists, mem_known_iff_exists, h]

theorem verdict_congr (t : Transfer) (h : ∀ i : Nat, d.recovered[i]? = d'.recovered[i]?) :
    d.verdict t = d'.verdict t := by
  have hlist := (Std.TreeMap.Equiv.of_forall_constGet?_eq h).toList_eq
  rw [verdict, verdict, assemble, assemble, hlist]

/-- A transfer does not end before a fragment is recovered. -/
theorem known_nonempty_settle (hd : d.outcome ≠ none → d.known.Nonempty) :
    (d.settle t).outcome ≠ none → (d.settle t).known.Nonempty := by
  refine settle_induction (motive := fun d => d.outcome ≠ none → d.known.Nonempty) t ?_ d hd
  intro d m rest hrunning _ _ hended
  have hprocessed := processed { d with queue := rest } t m
  generalize { d with queue := rest }.process t m = d' at *
  cases hprocessed with
  | known _ _ => exact absurd hrunning hended
  | @last i _ _ _ =>
      rw [known_finish, known_withFragment]
      exact Finset.insert_nonempty i _
  | fragment _ _ _ => exact absurd hrunning hended
  | repeated _ _ _ => exact absurd hrunning hended
  | resolved _ _ => exact absurd hrunning hended
  | kept _ _ =>
      rw [outcome_hold] at hended
      exact absurd hrunning hended

theorem known_nonempty_feedAll (t : Transfer) (ms : List Mix) :
    ((ofTransfer t).feedAll t ms).outcome ≠ none → ((ofTransfer t).feedAll t ms).known.Nonempty := by
  refine feedAll_induction (motive := fun _ d => d.outcome ≠ none → d.known.Nonempty) ms
    (fun h => absurd rfl h) ?_
  intro _ d m _ hd
  rw [feed]
  split
  · exact hd
  · exact known_nonempty_settle hd

/-- Transfers that have recovered the same fragments stand in the same way. -/
theorem outcome_feedAll_congr (hms : ∀ m ∈ ms, m.Within t.seqLen t.fragmentLen)
    (hms' : ∀ m ∈ ms', m.Within t.seqLen t.fragmentLen)
    (h : ∀ i : Nat, ((ofTransfer t).feedAll t ms).recovered[i]? =
      ((ofTransfer t).feedAll t ms').recovered[i]?) :
    ((ofTransfer t).feedAll t ms).outcome = ((ofTransfer t).feedAll t ms').outcome := by
  rcases Nat.eq_zero_or_pos t.seqLen with hzero | hpos
  · -- Without fragments there is nothing to recover, so no order ends the transfer.
    have hnone (order : List Mix) (horder : ∀ m ∈ order, m.Within t.seqLen t.fragmentLen) :
        ((ofTransfer t).feedAll t order).outcome = none := by
      by_contra hended
      obtain ⟨i, hi⟩ := known_nonempty_feedAll t order hended
      obtain ⟨data, hdata⟩ := mem_known_iff_exists.1 hi
      have hwithin := stores_feedAll (Mix.reductionClosed_within _ _) horder _ (.recovered hdata)
      have hlt := hwithin.lt i (by rw [Mix.support_ofFragment]; exact Finset.mem_singleton_self i)
      omega
    rw [hnone ms hms, hnone ms' hms']
  · rw [(paused_feedAll hpos hms).outcome_eq, (paused_feedAll hpos hms').outcome_eq,
      known_congr h, verdict_congr t h]

/-! ### Mixes of one table -/

/-- A list of mixes that there is room for, all of them sums of one table of fragments. -/
structure Consistent (t : Transfer) (table : Nat → Bytes) (ms : List Mix) : Prop where
  few : ms.length ≤ maxHeld
  lt : ∀ m ∈ ms, ∀ i ∈ m.indexes, i < t.seqLen
  length : ∀ i < t.seqLen, (table i).length = t.fragmentLen
  data : ∀ m ∈ ms, m.data = Mix.sumOver table t.fragmentLen m.indexes

namespace Consistent

theorem perm (h : Consistent t table ms) (hperm : ms.Perm ms') : Consistent t table ms' where
  few := hperm.length_eq ▸ h.few
  lt := fun m hm => h.lt m (hperm.mem_iff.2 hm)
  length := h.length
  data := fun m hm => h.data m (hperm.mem_iff.2 hm)

theorem encodes (h : Consistent t table ms) : ∀ m ∈ ms, m.Encodes table t.fragmentLen :=
  fun m hm => ⟨fun i hi => h.length i (h.lt m hm i (IndexSet.mem_toFinset.1 hi)), h.data m hm⟩

theorem within (h : Consistent t table ms) : ∀ m ∈ ms, m.Within t.seqLen t.fragmentLen := by
  intro m hm
  have hencodes := h.encodes m hm
  refine ⟨fun i hi => h.lt m hm i (IndexSet.mem_toFinset.1 hi), ?_⟩
  rw [hencodes.data]
  exact Mix.length_sumOver hencodes.length

/-- What is recovered are fragments of the table. -/
theorem eq_table (h : Consistent t table ms) {i : Nat} {data : Bytes}
    (hi : ((ofTransfer t).feedAll t ms).recovered[i]? = some data) : data = table i :=
  Mix.encodes_ofFragment
    (stores_feedAll (Mix.reductionClosed_encodes table t.fragmentLen) h.encodes _ (.recovered hi))

/-- What plain peeling recovers is recovered. -/
theorem mem_recovered_of_peels (h : Consistent t table ms) {peeled : Finset Nat}
    (hpeeled : Mix.Peels ms peeled) {i : Nat} (hi : i ∈ peeled) :
    i ∈ ((ofTransfer t).feedAll t ms).recovered := by
  rcases Nat.eq_zero_or_pos t.seqLen with hzero | hpos
  · -- Without fragments there is nothing to peel.
    have hnone : peeled ⊆ ∅ := hpeeled.subset fun m hm hone => by
      rw [Finset.sdiff_empty] at hone
      obtain ⟨j, hj⟩ := Finset.card_pos.1 (hone ▸ Nat.one_pos)
      have := (h.within m hm).lt j hj
      omega
    exact absurd (hnone hi) (Finset.notMem_empty i)
  · have hfew : ms.countP (!·.isSingle) ≤ maxHeld := List.countP_le_length.trans h.few
    exact mem_known.1
      (hpeeled.subset (card_sdiff_known_feedAll_ne_one hpos h.within hfew) hi)

/-- If plain peeling recovers every fragment, the transfer ends. -/
theorem isComplete_of_peels (h : Consistent t table ms) (hpos : 0 < t.seqLen) {peeled : Finset Nat}
    (hpeeled : Mix.Peels ms peeled) (hfull : Finset.range t.seqLen ⊆ peeled) :
    ((ofTransfer t).feedAll t ms).isComplete = true := by
  have hknown : Finset.range t.seqLen ⊆ ((ofTransfer t).feedAll t ms).known :=
    fun i hi => mem_known.2 (h.mem_recovered_of_peels hpeeled (hfull hi))
  cases paused_feedAll hpos h.within with
  | running hrunning _ =>
      have hcard := Finset.card_le_card hknown
      rw [Finset.card_range] at hcard
      exact absurd hrunning.missing (Nat.not_lt.2 hcard)
  | finished hfinished => exact hfinished.isComplete

/-- Where the same indexes are recovered, the same fragments are. -/
theorem getElem?_congr (h : Consistent t table ms) (h' : Consistent t table ms')
    (hindexes : ∀ i, i ∈ ((ofTransfer t).feedAll t ms).recovered ↔
      i ∈ ((ofTransfer t).feedAll t ms').recovered) (i : Nat) :
    ((ofTransfer t).feedAll t ms).recovered[i]? = ((ofTransfer t).feedAll t ms').recovered[i]? := by
  have hi := hindexes i
  rw [← mem_known, ← mem_known, mem_known_iff_exists, mem_known_iff_exists] at hi
  cases hdata : ((ofTransfer t).feedAll t ms).recovered[i]? with
  | some data =>
      obtain ⟨data', hdata'⟩ := hi.1 ⟨data, hdata⟩
      rw [hdata', h.eq_table hdata, h'.eq_table hdata']
  | none =>
      cases hdata' : ((ofTransfer t).feedAll t ms').recovered[i]? with
      | none => rfl
      | some data' =>
          obtain ⟨data, hsome⟩ := hi.2 ⟨data', hdata'⟩
          rw [hdata] at hsome
          exact absurd hsome.symm (Option.some_ne_none data)

end Consistent

/-- What is recovered is reached by reductions. -/
theorem reached_of_recovered {i : Nat} {data : Bytes}
    (hi : ((ofTransfer t).feedAll t ms).recovered[i]? = some data) : Mix.Reached ms {i} := by
  have h := stores_feedAll (Mix.reductionClosed_reached ms) (fun m hm => .given hm) _ (.recovered hi)
  rwa [Mix.support_ofFragment] at h

/-! ### Orders -/

/-- Whatever the order in which consistent mixes are fed: only fragments of the table are recovered,
and only at indexes that reductions reach, and all that plain peeling recovers is; if this is every
fragment, the transfer ends. Two orders that recover the same indexes recover the same fragments and
leave the transfer in the same way, and they recover the same indexes if reductions reach none that
plain peeling does not. -/
theorem feedAll_perm (h : Consistent t table ms) (hperm : ms.Perm ms') :
    let d := (ofTransfer t).feedAll t ms
    let d' := (ofTransfer t).feedAll t ms'
    (∀ i data, d'.recovered[i]? = some data → data = table i ∧ Mix.Reached ms {i}) ∧
      (∀ peeled, Mix.Peels ms peeled → (∀ i ∈ peeled, i ∈ d'.recovered) ∧
        (0 < t.seqLen → Finset.range t.seqLen ⊆ peeled → d'.isComplete = true)) ∧
      ((∀ i, i ∈ d.recovered ↔ i ∈ d'.recovered) →
        (∀ i : Nat, d.recovered[i]? = d'.recovered[i]?) ∧ d.outcome = d'.outcome) ∧
      ((∀ i, Mix.Reached ms {i} → ∃ peeled, Mix.Peels ms peeled ∧ i ∈ peeled) →
        (∀ i : Nat, d.recovered[i]? = d'.recovered[i]?) ∧ d.outcome = d'.outcome) := by
  intro d d'
  have h' : Consistent t table ms' := h.perm hperm
  have hreached {i : Nat} {data : Bytes} (hi : d'.recovered[i]? = some data) :
      Mix.Reached ms {i} := (reached_of_recovered hi).mono hperm.symm.subset
  have hpeels {peeled : Finset Nat} (hpeeled : Mix.Peels ms peeled) {i : Nat} (hi : i ∈ peeled) :
      i ∈ d'.recovered := h'.mem_recovered_of_peels (hpeeled.mono hperm.subset) hi
  have hsame (hindexes : ∀ i, i ∈ d.recovered ↔ i ∈ d'.recovered) :
      (∀ i : Nat, d.recovered[i]? = d'.recovered[i]?) ∧ d.outcome = d'.outcome := by
    have hlookup := h.getElem?_congr h' hindexes
    exact ⟨hlookup, outcome_feedAll_congr h.within h'.within hlookup⟩
  refine ⟨fun i data hi => ⟨h'.eq_table hi, hreached hi⟩, fun peeled hpeeled => ⟨?_, ?_⟩, hsame,
    fun htight => hsame fun i => ⟨?_, ?_⟩⟩
  · exact fun i hi => hpeels hpeeled hi
  · exact fun hpos hfull => h'.isComplete_of_peels hpos (hpeeled.mono hperm.subset) hfull
  · intro hi
    obtain ⟨data, hdata⟩ := mem_known_iff_exists.1 (mem_known.2 hi)
    obtain ⟨peeled, hpeeled, hmem⟩ := htight i (reached_of_recovered hdata)
    exact hpeels hpeeled hmem
  · intro hi
    obtain ⟨data, hdata⟩ := mem_known_iff_exists.1 (mem_known.2 hi)
    obtain ⟨peeled, hpeeled, hmem⟩ := htight i (hreached hdata)
    exact h.mem_recovered_of_peels hpeeled hmem

/-- A mix of two fragments and one of them, and the same in the other order. -/
theorem feedAll_perm_two_fragments :
    let t : Transfer := ⟨2, 2, 0, 1⟩
    let table : Nat → Bytes := fun i => if i = 0 then [0x2a] else [0x17]
    let ms : List Mix := [⟨⟨[0, 1], by decide⟩, [0x3d]⟩, ⟨⟨[1], by decide⟩, [0x17]⟩]
    Consistent t table ms ∧ ms.Perm ms.reverse ∧
      (∀ i, Mix.Reached ms {i} → ∃ peeled, Mix.Peels ms peeled ∧ i ∈ peeled) ∧
      ((ofTransfer t).feedAll t ms).outcome = ((ofTransfer t).feedAll t ms.reverse).outcome := by
  intro t table ms
  have hconsistent : Consistent t table ms := by
    refine ⟨by decide, by decide, ?_, by decide +kernel⟩
    intro i _
    simp only [table]
    split <;> rfl
  have hperm : ms.Perm ms.reverse := (List.reverse_perm ms).symm
  have hpeeled : Mix.Peels ms {0, 1} := by
    have hone : Mix.Peels ms {1} := .solve (m := ⟨⟨[1], by decide⟩, [0x17]⟩) (i := 1) .start (by decide)
      (by decide)
    exact .solve (m := ⟨⟨[0, 1], by decide⟩, [0x3d]⟩) (i := 0) hone (by decide) (by decide)
  have htight : ∀ i, Mix.Reached ms {i} → ∃ peeled, Mix.Peels ms peeled ∧ i ∈ peeled := by
    -- Reductions reach no index that is not in one of the mixes.
    have hsub (s : Finset Nat) (hs : Mix.Reached ms s) : s ⊆ {0, 1} := by
      induction hs with
      | given hm =>
          rcases List.mem_pair.1 hm with rfl | rfl <;> decide
      | reduced _ _ _ hs _ => exact Finset.sdiff_subset.trans hs
    exact fun i hi => ⟨_, hpeeled, hsub _ hi (Finset.mem_singleton_self i)⟩
  exact ⟨hconsistent, hperm, htight, ((feedAll_perm hconsistent hperm).2.2.2 htight).2⟩

/-- The order can matter. Three mixes of three fragments of four each are held, and a fragment that
comes last takes two of them down to sets that the third contains; nothing compares them again. If
the fragment comes first, every fragment is recovered. -/
theorem order_matters :
    let t : Transfer := ⟨4, 4, Crc32.checksum [1, 2, 4, 8], 1⟩
    let table : Nat → Bytes := fun i => [2 ^ i]
    let mixes : List Mix :=
      [⟨⟨[0, 1, 2], by decide⟩, [7]⟩, ⟨⟨[0, 1, 3], by decide⟩, [11]⟩, ⟨⟨[1, 2, 3], by decide⟩, [14]⟩]
    let fragment : Mix := ⟨⟨[0], by decide⟩, [1]⟩
    let late := (ofTransfer t).feedAll t (mixes ++ [fragment])
    let early := (ofTransfer t).feedAll t (fragment :: mixes)
    Consistent t table (mixes ++ [fragment]) ∧ (mixes ++ [fragment]).Perm (fragment :: mixes) ∧
      late.recovered.keys = [0] ∧ late.isComplete = false ∧
      early.recovered.keys = [0, 1, 2, 3] ∧ early.isComplete = true := by
  intro t table mixes fragment late early
  refine ⟨⟨by decide, by decide, fun i _ => rfl, by decide +kernel⟩, ?_, ?_⟩
  · exact List.perm_append_singleton fragment mixes
  · decide +kernel

end Decoder

end UrReplay.Fountain
