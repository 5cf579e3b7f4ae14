import UrReplay.Proofs.Random.Sampling
/-!
# UrReplay.Proofs.Random.Removal

Sampling with the tree of counts is removal from a list. `drawByRemoval` keeps the indexes that remain
in a plain list and takes each draw out at its position. As long as the tree counts the members of that
list, both hand out the same indexes and draw the same numbers (`takeAll_ranks`): the member with `rank`
members below it stands at position `rank` of an ascending list (`exists_split_of_count`).
-/

namespace UrReplay

namespace RankTree

/-- In an ascending list, a member stands behind the members below it. -/
theorem exists_split_of_count {items : List Nat} (hasc : items.Pairwise (· < ·)) {i rank : Nat}
    (hi : i ∈ items) (hrank : count items.toFinset 0 i = rank) :
    ∃ before after, items = before ++ i :: after ∧ before.length = rank := by
  obtain ⟨before, after, rfl⟩ := List.append_of_mem hi
  refine ⟨before, after, rfl, ?_⟩
  obtain ⟨hbefore, hafter, hbelow⟩ := List.pairwise_append.1 hasc
  have habove := (List.pairwise_cons.1 hafter).1
  have hfilter : (before ++ i :: after).toFinset.filter (fun j => 0 ≤ j ∧ j < i) =
      before.toFinset := by
    ext j
    simp only [Finset.mem_filter, List.mem_toFinset, List.mem_append, List.mem_cons]
    constructor
    · intro h
      obtain ⟨hj | rfl | hj, -, hlt⟩ := h
      · exact hj
      · exact absurd hlt (Nat.lt_irrefl j)
      · exact absurd hlt (Nat.lt_asymm (habove j hj))
    · intro hj
      exact ⟨.inl hj, Nat.zero_le j, hbelow j hj i List.mem_cons_self⟩
  rw [← hrank, count, hfilter,
    List.toFinset_card_of_nodup (hbefore.imp Nat.ne_of_lt)]

/-- Without one of its members, an ascending list is that of the others. -/
theorem toFinset_erase_split {before after : List Nat} {i : Nat}
    (hasc : (before ++ i :: after).Pairwise (· < ·)) :
    (before ++ i :: after).toFinset.erase i = (before ++ after).toFinset := by
  have hnodup : (i :: (before ++ after)).Nodup :=
    List.nodup_middle.1 (hasc.imp Nat.ne_of_lt)
  have hmoved : (before ++ i :: after).toFinset = (i :: (before ++ after)).toFinset :=
    List.toFinset_eq_of_perm _ _ List.perm_middle
  rw [hmoved, List.toFinset_cons, Finset.erase_insert]
  exact fun hi => (List.nodup_cons.1 hnodup).1 (List.mem_toFinset.1 hi)

/-- What a tree hands out by rank stands at that position of the ascending list of its members, and
the tree is left with the members around it. -/
theorem take_split {len : Nat} {tree : RankTree len} {items : List Nat}
    (h : tree.Counts items.toFinset) (hasc : items.Pairwise (· < ·)) {rank : Nat}
    (hrank : rank < items.length) :
    ∃ before after, items = before ++ (tree.take rank).1 :: after ∧ before.length = rank ∧
      (tree.take rank).2.Counts (before ++ after).toFinset ∧
      (before ++ after).Pairwise (· < ·) := by
  have hcard : rank < items.toFinset.card := by
    rwa [List.toFinset_card_of_nodup (hasc.imp Nat.ne_of_lt)]
  obtain ⟨hmem, hcount, hcounts⟩ := take_spec h hcard
  generalize (tree.take rank).1 = i at hmem hcount hcounts ⊢
  obtain ⟨before, after, rfl, hlength⟩ :=
    exists_split_of_count hasc (List.mem_toFinset.1 hmem) hcount
  rw [toFinset_erase_split hasc] at hcounts
  have hleft : (before ++ after).Sublist (before ++ i :: after) :=
    (List.sublist_cons_self i after).append_left before
  exact ⟨before, after, rfl, hlength, hcounts, hasc.sublist hleft⟩

end RankTree

namespace Xoshiro

/-- Draws `count` of the items of a list, or all of them if there are not so many. Each draw picks a
position and takes the item there out of the list. -/
def drawByRemoval (items : List Nat) : (count : Nat) → Xoshiro → List Nat × Xoshiro
  | 0, g => ([], g)
  | count + 1, g =>
    if h : 0 < items.length then
      let position := (g.nextBelow items.length).1
      let (drawn, last) :=
        drawByRemoval (items.eraseIdx position) count (g.nextBelow items.length).2
      (items.get ⟨position, g.nextBelow_lt h⟩ :: drawn, last)
    else ([], g)

theorem drawByRemoval_nil (count : Nat) (g : Xoshiro) : drawByRemoval [] count g = ([], g) := by
  cases count <;> rfl

/-- The item at the drawn position comes first, and the others are drawn from those around it. -/
theorem drawByRemoval_split {items before after : List Nat} {i : Nat} {g : Xoshiro}
    (hitems : items = before ++ i :: after) (h : before.length = (g.nextBelow items.length).1)
    (count : Nat) :
    drawByRemoval items (count + 1) g =
      (i :: (drawByRemoval (before ++ after) count (g.nextBelow items.length).2).1,
        (drawByRemoval (before ++ after) count (g.nextBelow items.length).2).2) := by
  have hpos : 0 < items.length := by
    rw [hitems]
    simp
  have herase : items.eraseIdx before.length = before ++ after := by
    rw [hitems, List.eraseIdx_append_of_length_le (Nat.le_refl _), Nat.sub_self,
      List.eraseIdx_cons_zero]
  have hget (hlt : before.length < items.length) : items.get ⟨before.length, hlt⟩ = i := by
    subst hitems
    rw [List.get_eq_getElem, List.getElem_append_right (Nat.le_refl _)]
    simp
  rw [drawByRemoval, dif_pos hpos]
  simp only [← h, herase, hget]

/-- A tree that counts the members of an ascending list hands out what is drawn from the list, and
the same numbers are drawn for it. -/
theorem takeAll_ranks {len : Nat} {tree : RankTree len} {items : List Nat}
    (h : tree.Counts items.toFinset) (hasc : items.Pairwise (· < ·)) (count : Nat) (g : Xoshiro) :
    (tree.takeAll (g.ranks items.length count).1, (g.ranks items.length count).2) =
      drawByRemoval items count g := by
  induction count generalizing tree items g with
  | zero =>
    rw [ranks_zero, RankTree.takeAll_nil]
    rfl
  | succ count ih =>
    by_cases hpos : 0 < items.length
    · obtain ⟨before, after, hitems, hlength, hcounts, hasc'⟩ :=
        RankTree.take_split h hasc (g.nextBelow_lt hpos)
      have hleft : items.length = (before ++ after).length + 1 := by
        rw [hitems, List.length_append, List.length_append, List.length_cons, Nat.add_assoc]
      rw [drawByRemoval_split hitems hlength, ← ih hcounts hasc', hleft, ranks_succ, ← hleft,
        RankTree.takeAll_cons]
    · have hnil : items = [] := List.length_eq_zero_iff.1 (Nat.eq_zero_of_not_pos hpos)
      rw [hnil, List.length_nil, zero_ranks, RankTree.takeAll_nil, drawByRemoval_nil]

/-- A sample is what is drawn from the list of all indexes. -/
theorem sample_eq_drawByRemoval (g : Xoshiro) (len count : Nat) :
    g.sample len count = drawByRemoval (List.range len) count g := by
  have hcounts : (RankTree.full len).Counts (List.range len).toFinset := by
    rw [List.toFinset_range]
    exact RankTree.counts_full len
  rw [sample_eq, ← takeAll_ranks hcounts List.pairwise_lt_range, List.length_range]

/-- Fewer draws are the first of more draws. -/
theorem fst_drawByRemoval_take (items : List Nat) {count more : Nat} (h : count ≤ more)
    (g : Xoshiro) :
    (drawByRemoval items count g).1 = (drawByRemoval items more g).1.take count := by
  induction count generalizing items more g with
  | zero => rfl
  | succ count ih =>
    obtain ⟨more, rfl⟩ := Nat.exists_eq_add_of_le' (Nat.zero_lt_of_lt h)
    rw [drawByRemoval, drawByRemoval]
    split
    · exact congrArg _ (ih _ (Nat.le_of_succ_le_succ h) _)
    · rfl

/-- Drawing by rank out of the tree is drawing by removal from the plain list of all indexes, once for
each index that is asked for and there: the indexes are the same, in the same order, and so is the
generator after them. So a sample is the front of a full shuffle from the same generator. -/
theorem sample_eq_removal (g : Xoshiro) (len count : Nat) :
    g.sample len count = drawByRemoval (List.range len) (min count len) g ∧
      (g.sample len count).1 = (g.sample len len).1.take (min count len) ∧
      (g.sample len len).1.Perm (List.range len) := by
  have hremoval : g.sample len count = drawByRemoval (List.range len) (min count len) g := by
    rw [← sample_eq_drawByRemoval, sample_eq, sample_eq, ranks_min]
  refine ⟨hremoval, ?_, ?_⟩
  · rw [hremoval, sample_eq_drawByRemoval g len len]
    exact fst_drawByRemoval_take _ (Nat.min_le_right _ _) g
  · obtain ⟨hnodup, hlt, hlength⟩ := g.sample_spec len len
    have hsub : (g.sample len len).1 ⊆ List.range len := fun i hi => List.mem_range.2 (hlt i hi)
    refine (hnodup.subperm hsub).perm_of_length_le ?_
    rw [hlength, Nat.min_self, List.length_range]

end Xoshiro

end UrReplay
