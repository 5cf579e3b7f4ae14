import UrReplay.Proofs.Random.RankTree
import UrReplay.Random.Sampling
/-!
# UrReplay.Proofs.Random.Sampling

A sample is drawn without replacement whatever the generator gives and however its numbers are
rounded: each rank is cut down below the number of indexes that remain (`RanksFit`), so the tree
hands out distinct indexes in range (`sample_spec`).
-/

namespace UrReplay

namespace RankTree

variable {len : Nat}

/-- Whether each rank is below the number of indexes that remain when its turn comes, starting
with `n` of them. -/
def RanksFit : (n : Nat) → List Nat → Prop
  | _, [] => True
  | n, rank :: ranks => rank < n ∧ RanksFit (n - 1) ranks

theorem takeAll_nil (tree : RankTree len) : tree.takeAll [] = [] := rfl

/-- One index comes out first, and the others come out of the tree that is left. -/
theorem takeAll_cons (tree : RankTree len) (rank : Nat) (ranks : List Nat) :
    tree.takeAll (rank :: ranks) = (tree.take rank).1 :: (tree.take rank).2.takeAll ranks := by
  have general (ranks : List Nat) (tree : RankTree len) (taken : List Nat) :
      (ranks.foldl (fun x rank => ((x.1.take rank).2, (x.1.take rank).1 :: x.2))
        (tree, taken)).2.reverse = taken.reverse ++ tree.takeAll ranks := by
    induction ranks generalizing tree taken with
    | nil => exact (List.append_nil _).symm
    | cons rank ranks ih =>
      have hcons : tree.takeAll (rank :: ranks) =
          (ranks.foldl (fun x rank => ((x.1.take rank).2, (x.1.take rank).1 :: x.2))
            ((tree.take rank).2, [(tree.take rank).1])).2.reverse := rfl
      rw [List.foldl_cons, hcons, ih, ih, List.reverse_cons, List.append_assoc]
      rfl
  exact general ranks (tree.take rank).2 [(tree.take rank).1]

/-- Ranks that fit take out distinct members, one for each rank. -/
theorem takeAll_spec {tree : RankTree len} {s : Finset Nat} (h : Counts tree s) {ranks : List Nat}
    (hranks : RanksFit s.card ranks) :
    (tree.takeAll ranks).Nodup ∧ (∀ i ∈ tree.takeAll ranks, i ∈ s) ∧
      (tree.takeAll ranks).length = ranks.length := by
  induction ranks generalizing tree s with
  | nil => simp [takeAll_nil]
  | cons rank ranks ih =>
    obtain ⟨hrank, hranks⟩ := hranks
    obtain ⟨hmem, -, hcounts⟩ := take_spec h hrank
    rw [← Finset.card_erase_of_mem hmem] at hranks
    obtain ⟨hnodup, hsub, hlength⟩ := ih hcounts hranks
    rw [takeAll_cons]
    refine ⟨List.nodup_cons.2 ⟨?_, hnodup⟩, ?_, ?_⟩
    · intro hi
      exact absurd rfl (Finset.ne_of_mem_erase (hsub _ hi))
    · intro i hi
      rcases List.mem_cons.1 hi with rfl | hi
      · exact hmem
      · exact Finset.mem_of_mem_erase (hsub i hi)
    · rw [List.length_cons, List.length_cons, hlength]

end RankTree

namespace Xoshiro

open RankTree (RanksFit)

theorem nextBelow_lt (g : Xoshiro) {bound : Nat} (h : 0 < bound) : (g.nextBelow bound).1 < bound :=
  Nat.lt_of_le_of_lt (Nat.min_le_right _ _) (Nat.sub_lt h Nat.one_pos)

/-! ### Ranks -/

theorem ranksFrom_succ (drawn : List Nat) (left count : Nat) (g : Xoshiro) :
    ranksFrom drawn (left + 1) (count + 1) g =
      ranksFrom ((g.nextBelow (left + 1)).1 :: drawn) left count (g.nextBelow (left + 1)).2 := rfl

/-- The ranks that are drawn come after those drawn before. -/
theorem ranksFrom_eq (drawn : List Nat) (left count : Nat) (g : Xoshiro) :
    ranksFrom drawn left count g =
      (drawn.reverse ++ (g.ranks left count).1, (g.ranks left count).2) := by
  induction left generalizing drawn count g with
  | zero => simp [ranks, ranksFrom]
  | succ left ih =>
    cases count with
    | zero => simp [ranks, ranksFrom]
    | succ count =>
      rw [ranks, ranksFrom_succ, ranksFrom_succ, ih, ih [_], List.reverse_cons, List.append_assoc]
      rfl

theorem ranks_zero (g : Xoshiro) (left : Nat) : g.ranks left 0 = ([], g) := by
  simp [ranks, ranksFrom]

theorem zero_ranks (g : Xoshiro) (count : Nat) : g.ranks 0 count = ([], g) := by
  simp [ranks, ranksFrom]

/-- One rank is drawn first, and the others are those for one index less. -/
theorem ranks_succ (g : Xoshiro) (left count : Nat) :
    g.ranks (left + 1) (count + 1) =
      ((g.nextBelow (left + 1)).1 :: ((g.nextBelow (left + 1)).2.ranks left count).1,
        ((g.nextBelow (left + 1)).2.ranks left count).2) := by
  rw [ranks, ranksFrom_succ, ranksFrom_eq]
  rfl

/-- No more ranks are drawn than there are indexes. -/
theorem ranks_min (g : Xoshiro) (left count : Nat) :
    g.ranks left (min count left) = g.ranks left count := by
  induction left generalizing count g with
  | zero => rw [zero_ranks, zero_ranks]
  | succ left ih =>
    cases count with
    | zero => rw [Nat.zero_min]
    | succ count => rw [Nat.succ_min_succ, ranks_succ, ranks_succ, ih]

/-- The ranks fit, and there are as many as were asked for if there are so many indexes. -/
theorem ranks_spec (g : Xoshiro) (left count : Nat) :
    RanksFit left (g.ranks left count).1 ∧ (g.ranks left count).1.length = min left count := by
  induction left generalizing count g with
  | zero => simp [zero_ranks, RanksFit]
  | succ left ih =>
    cases count with
    | zero => simp [ranks_zero, RanksFit]
    | succ count =>
      obtain ⟨hfit, hlength⟩ := ih (g.nextBelow (left + 1)).2 count
      rw [ranks_succ]
      refine ⟨⟨nextBelow_lt g left.succ_pos, hfit⟩, ?_⟩
      rw [List.length_cons, hlength]
      omega

/-! ### Samples -/

theorem sample_eq (g : Xoshiro) (len count : Nat) :
    g.sample len count =
      ((RankTree.full len).takeAll (g.ranks len count).1, (g.ranks len count).2) := rfl

/-- A sample has distinct indexes below `len`, as many as were asked for if there are so many. -/
theorem sample_spec (g : Xoshiro) (len count : Nat) :
    (g.sample len count).1.Nodup ∧ (∀ i ∈ (g.sample len count).1, i < len) ∧
      (g.sample len count).1.length = min len count := by
  obtain ⟨hfit, hlength⟩ := g.ranks_spec len count
  have hrange : RanksFit (Finset.range len).card (g.ranks len count).1 := by
    rwa [Finset.card_range]
  obtain ⟨hnodup, hsub, hlen⟩ := RankTree.takeAll_spec (RankTree.counts_full len) hrange
  rw [sample_eq]
  exact ⟨hnodup, fun i hi => Finset.mem_range.1 (hsub i hi), hlen.trans hlength⟩

/-- The degree is between one and the number of fragments. -/
theorem degree_spec (g : Xoshiro) (len : Nat) (hlen : 0 < len) :
    0 < (g.degree len hlen).1 ∧ (g.degree len hlen).1 ≤ len :=
  ⟨Nat.succ_pos _, Fin.isLt _⟩

end Xoshiro

end UrReplay
