import UrReplay.Proofs.Random.RankTree.InPlace
import UrReplay.Proofs.Random.Sampling
/-!
# UrReplay.Proofs.Random.RankTree.Calls

What the tree of counts is and does in the course of a sequence of calls. Every call takes an index out of
those that remain, so by induction on the calls the tree counts the indexes that remain after all of them
(`counts_after`). From that the next call is what it should be, in place as well (`calls_exact`).
-/

namespace UrReplay.RankTree

variable {len : Nat}

theorem count_zero_left (s : Finset Nat) (b : Nat) : count s 0 b = (s.filter (· < b)).card := by
  simp only [count, Nat.zero_le, true_and]

/-- The tree that is left when indexes have been taken out by rank, one after another. -/
def after (tree : RankTree len) : List Nat → RankTree len
  | [] => tree
  | rank :: ranks => (tree.take rank).2.after ranks

/-- The indexes below `len` that are left then. -/
def remaining (len : Nat) (ranks : List Nat) : Finset Nat :=
  Finset.range len \ ((full len).takeAll ranks).toFinset

theorem after_append (tree : RankTree len) (ranks more : List Nat) :
    tree.after (ranks ++ more) = (tree.after ranks).after more := by
  induction ranks generalizing tree with
  | nil => rfl
  | cons rank ranks ih => exact ih _

theorem takeAll_append (tree : RankTree len) (ranks more : List Nat) :
    tree.takeAll (ranks ++ more) = tree.takeAll ranks ++ (tree.after ranks).takeAll more := by
  induction ranks generalizing tree with
  | nil => rw [takeAll_nil, List.nil_append, List.nil_append, after]
  | cons rank ranks ih => rw [List.cons_append, takeAll_cons, takeAll_cons, ih, List.cons_append, after]

theorem ranksFit_append {n : Nat} {ranks more : List Nat} :
    RanksFit n (ranks ++ more) ↔ RanksFit n ranks ∧ RanksFit (n - ranks.length) more := by
  induction ranks generalizing n with
  | nil => simp [RanksFit]
  | cons rank ranks ih =>
    rw [List.cons_append, RanksFit, RanksFit, ih, List.length_cons, and_assoc, Nat.sub_sub,
      Nat.add_comm 1]

/-- Calls with ranks that fit leave a tree that counts what they leave, one index less for each. -/
theorem counts_after {tree : RankTree len} {s : Finset Nat} (h : Counts tree s) {ranks : List Nat}
    (hranks : RanksFit s.card ranks) :
    Counts (tree.after ranks) (s \ (tree.takeAll ranks).toFinset) ∧
      (s \ (tree.takeAll ranks).toFinset).card = s.card - ranks.length := by
  induction ranks generalizing tree s with
  | nil => simpa [takeAll_nil, after] using h
  | cons rank ranks ih =>
    obtain ⟨hrank, hranks⟩ := hranks
    obtain ⟨hmem, -, hcounts⟩ := take_spec h hrank
    have hcard := Finset.card_erase_of_mem hmem
    rw [← hcard] at hranks
    have hleft : s \ (tree.takeAll (rank :: ranks)).toFinset =
        s.erase (tree.take rank).1 \ ((tree.take rank).2.takeAll ranks).toFinset := by
      rw [takeAll_cons, List.toFinset_cons, Finset.sdiff_insert, Finset.erase_sdiff_comm]
    rw [hleft, after, List.length_cons, Nat.add_comm, ← Nat.sub_sub, ← hcard]
    exact ih hcounts hranks

theorem remaining_concat (ranks : List Nat) (rank : Nat) :
    remaining len (ranks ++ [rank]) =
      (remaining len ranks).erase (((full len).after ranks).take rank).1 := by
  rw [remaining, takeAll_append, takeAll_cons, takeAll_nil, List.toFinset_append, remaining]
  ext i
  simp only [Finset.mem_sdiff, Finset.mem_union, List.mem_toFinset, Finset.mem_erase,
    List.mem_singleton]
  tauto

/-- After calls with ranks that fit, the tree counts the indexes that remain, one less for each call. -/
theorem counts_remaining {ranks : List Nat} (hranks : RanksFit len ranks) :
    Counts ((full len).after ranks) (remaining len ranks) ∧
      (remaining len ranks).card = len - ranks.length := by
  have hfit : RanksFit (Finset.range len).card ranks := by rwa [Finset.card_range]
  have hafter := counts_after (counts_full len) hfit
  rwa [Finset.card_range] at hafter

/-- The tree of counts stays what it is meant to be. The lowest bit of an index is what it shares with its
negation, as a word of any width, and the pass over the nodes leaves the full tree. In a sequence of calls
whose ranks are each below the number of indexes that remain, node `i` counts, before and after every call,
the remaining indexes `j` with `i - lowestBit i ≤ j < i`. A call with a rank hands out the remaining index
with that many remaining indexes below it. In place it is carried out to its end: every node that it reads
or changes is there, no count is taken below zero, and each of its loops ends within `log2 len + 1` turns. -/
theorem calls_exact (len : Nat) (ranks : List Nat) (hranks : RanksFit len ranks) :
    (∀ (w : Nat) (x : BitVec w), lowestBit x.toNat = (x &&& -x).toNat) ∧
      filled? len = some (full len).nodes.toArray ∧
      (∀ before, before <+: ranks →
        (remaining len before).card = len - before.length ∧
          ∀ (i : Nat) (hi : i < len + 1), 0 < i → ((full len).after before).nodes.get ⟨i, hi⟩ =
            ((remaining len before).filter fun j => i - lowestBit i ≤ j ∧ j < i).card) ∧
      ∀ before rank, before ++ [rank] <+: ranks →
        let tree := (full len).after before
        let i := (tree.take rank).1
        let tree' := (tree.take rank).2
        i ∈ remaining len before ∧ ((remaining len before).filter (· < i)).card = rank ∧
          tree' = (full len).after (before ++ [rank]) ∧
          remaining len (before ++ [rank]) = (remaining len before).erase i ∧
          HandsOut (len.log2 + 1) tree.nodes.toArray rank i tree'.nodes.toArray := by
  refine ⟨fun _ => lowestBit_toNat, filled?_eq len, ?_, ?_⟩
  · intro before hbefore
    obtain ⟨more, rfl⟩ := hbefore
    obtain ⟨hnodes, hcard⟩ := counts_remaining (ranksFit_append.1 hranks).1
    exact ⟨hcard, hnodes.node⟩
  · intro before rank hbefore
    obtain ⟨more, rfl⟩ := hbefore
    obtain ⟨hfit, hrank, -⟩ := ranksFit_append.1 (ranksFit_append.1 hranks).1
    obtain ⟨hnodes, hcard⟩ := counts_remaining hfit
    rw [← hcard] at hrank
    obtain ⟨hmem, hbelow, -⟩ := take_spec hnodes hrank
    refine ⟨hmem, ?_, ?_, remaining_concat before rank, handsOut_take hnodes hmem⟩
    · rwa [count_zero_left] at hbelow
    · rw [after_append, after, after]

/-- Out of five indexes, those at the ranks three and zero are gone, and the last of the three that remain
is taken. -/
theorem calls_exact_three_of_five :
    RanksFit 5 [3, 0, 2] ∧ [3, 0] ++ [2] <+: [3, 0, 2] ∧ remaining 5 [3, 0] = {1, 2, 4} ∧
      (((full 5).after [3, 0]).take 2).1 = 4 ∧
      HandsOut 3 ((full 5).after [3, 0]).nodes.toArray 2 4
        ((full 5).after [3, 0, 2]).nodes.toArray := by
  have hranks : RanksFit 5 [3, 0, 2] := ⟨by decide, by decide, by decide, trivial⟩
  have hfront : [3, 0] ++ [2] <+: [3, 0, 2] := List.prefix_refl _
  obtain ⟨-, -, -, hcalls⟩ := calls_exact 5 [3, 0, 2] hranks
  obtain ⟨-, -, -, -, hcall⟩ := hcalls [3, 0] 2 hfront
  have hlast : (((full 5).after [3, 0]).take 2).1 = 4 := by decide +kernel
  have hlog : Nat.log2 5 + 1 = 3 := by decide +kernel
  rw [hlast, hlog] at hcall
  exact ⟨hranks, hfront, by decide +kernel, hlast, hcall⟩

end UrReplay.RankTree
