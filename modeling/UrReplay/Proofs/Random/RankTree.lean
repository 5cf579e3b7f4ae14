import Mathlib
import UrReplay.Random.RankTree
/-!
# UrReplay.Proofs.Random.RankTree

The tree of counts does what taking indexes out of a set by rank means.

* `Counts tree s` says that every node counts the members of `s` in its range. It holds of the full
  tree and is kept by `take`, which hands out the member with the asked number of members below it
  (`take_spec`).
* The descent is an induction on the bits that are left: the wanted member lies in a range of
  `2 ^ bits` indexes, and the node in the middle of the range says in which half.
* The update rests on one fact about lowest bits: from a node that covers an index, the next node
  covers it too, and no node between them does (`covers_next`, `not_covers_between`).
-/

namespace UrReplay

/-! ### Lowest bits -/

theorem two_mul_land_pred {n : Nat} (hn : 0 < n) :
    2 * n &&& (2 * n - 1) = 2 * (n &&& (n - 1)) := by
  have hodd : 2 * n - 1 = Nat.bit true (n - 1) := by
    rw [Nat.bit_true_apply]
    omega
  rw [hodd, ← Nat.bit_false_apply, Nat.land_bit, Bool.false_and, Nat.bit_false_apply]

theorem two_mul_add_one_land_pred (q : Nat) : (2 * q + 1) &&& (2 * q) = 2 * q := by
  rw [← Nat.bit_true_apply, ← Nat.bit_false_apply, Nat.land_bit, Bool.true_and, Nat.and_self]

theorem mul_odd_land_pred (a q : Nat) :
    2 ^ a * (2 * q + 1) &&& (2 ^ a * (2 * q + 1) - 1) = 2 ^ a * (2 * q) := by
  induction a with
  | zero => simpa using two_mul_add_one_land_pred q
  | succ a ih =>
    have hpos : 0 < 2 ^ a * (2 * q + 1) := by positivity
    rw [show 2 ^ (a + 1) * (2 * q + 1) = 2 * (2 ^ a * (2 * q + 1)) by ring, two_mul_land_pred hpos,
      ih]
    ring

/-- The lowest bit of a power of two times an odd number is that power. -/
theorem lowestBit_mul_odd (a q : Nat) : lowestBit (2 ^ a * (2 * q + 1)) = 2 ^ a := by
  have hsplit : 2 ^ a * (2 * q + 1) = 2 ^ a * (2 * q) + 2 ^ a := by ring
  rw [lowestBit, mul_odd_land_pred, hsplit, Nat.add_sub_cancel_left]

theorem exists_mul_odd {i : Nat} (hi : 0 < i) : ∃ a q, i = 2 ^ a * (2 * q + 1) := by
  obtain ⟨a, m, ⟨q, rfl⟩, hm⟩ := Nat.exists_eq_two_pow_mul_odd (Nat.pos_iff_ne_zero.1 hi)
  exact ⟨a, q, hm⟩

theorem lowestBit_le {i : Nat} : lowestBit i ≤ i := Nat.sub_le _ _

/-- Whether node `i` counts index `j`. -/
def Covers (i j : Nat) : Prop := i - lowestBit i ≤ j ∧ j < i

instance (i j : Nat) : Decidable (Covers i j) := inferInstanceAs (Decidable (_ ∧ _))

/-- The first node after an index covers it. -/
theorem covers_succ (j : Nat) : Covers (j + 1) j := by
  have hpos := lowestBit_pos j.succ_pos
  unfold Covers
  rw [Nat.succ_eq_add_one] at hpos
  omega

/-- The next node after one that covers an index covers it, too. -/
theorem covers_next {i j : Nat} (h : Covers i j) : Covers (i + lowestBit i) j := by
  have hpos : 0 < i := Nat.zero_lt_of_lt h.2
  obtain ⟨a, q, rfl⟩ := exists_mul_odd hpos
  obtain ⟨b, r, hr⟩ := exists_mul_odd q.succ_pos
  unfold Covers at h ⊢
  rw [lowestBit_mul_odd] at h ⊢
  have hnext : 2 ^ a * (2 * q + 1) + 2 ^ a = 2 ^ (a + 1 + b) * (2 * r + 1) := by
    calc 2 ^ a * (2 * q + 1) + 2 ^ a = 2 ^ (a + 1) * q.succ := by rw [Nat.succ_eq_add_one]; ring
      _ = 2 ^ (a + 1 + b) * (2 * r + 1) := by rw [hr]; ring
  have hbit : lowestBit (2 ^ a * (2 * q + 1) + 2 ^ a) = 2 ^ (a + 1 + b) := by
    rw [hnext, lowestBit_mul_odd]
  have hle : 2 ^ a + 2 ^ a ≤ 2 ^ (a + 1 + b) := by
    rw [← two_mul, ← pow_succ']
    exact Nat.pow_le_pow_right Nat.two_pos (Nat.le_add_right _ _)
  rw [hbit]
  omega

/-- Between a node that covers an index and the next one, no node covers it. -/
theorem not_covers_between {i j k : Nat} (h : Covers i j) (hik : i < k)
    (hk : k < i + lowestBit i) : ¬Covers k j := by
  have hpos : 0 < i := Nat.zero_lt_of_lt h.2
  obtain ⟨a, q, rfl⟩ := exists_mul_odd hpos
  obtain ⟨b, r, rfl⟩ := exists_mul_odd (Nat.zero_lt_of_lt hik)
  unfold Covers at h ⊢
  rw [lowestBit_mul_odd] at h hk ⊢
  -- The lowest bit of `k` is smaller than that of `i`: otherwise `k` would be a multiple of the latter.
  have hba : b < a := by
    by_contra hab
    obtain ⟨c, rfl⟩ := Nat.exists_eq_add_of_le (Nat.le_of_not_lt hab)
    have hmul : 2 ^ (a + c) * (2 * r + 1) = 2 ^ a * (2 ^ c * (2 * r + 1)) := by ring
    have hnext : 2 ^ a * (2 * q + 1) + 2 ^ a = 2 ^ a * (2 * q + 1 + 1) := by ring
    rw [hmul] at hik hk
    rw [hnext] at hk
    have h₁ := Nat.lt_of_mul_lt_mul_left hik
    have h₂ := Nat.lt_of_mul_lt_mul_left hk
    omega
  obtain ⟨c, rfl⟩ := Nat.exists_eq_add_of_lt hba
  -- So both are multiples of the lowest bit of `k`, which is at most their difference.
  have hmul : 2 ^ (b + c + 1) * (2 * q + 1) = 2 ^ b * (2 ^ (c + 1) * (2 * q + 1)) := by ring
  have hsucc : 2 ^ b * (2 ^ (c + 1) * (2 * q + 1)) + 2 ^ b =
      2 ^ b * (2 ^ (c + 1) * (2 * q + 1) + 1) := by ring
  rw [hmul] at h hik
  have hle : 2 ^ b * (2 ^ (c + 1) * (2 * q + 1) + 1) ≤ 2 ^ b * (2 * r + 1) :=
    Nat.mul_le_mul_left _ (Nat.lt_of_mul_lt_mul_left hik)
  omega

namespace RankTree

/-! ### Members in a range -/

/-- The number of members from `a` on and below `b`. -/
def count (s : Finset Nat) (a b : Nat) : Nat := (s.filter fun j => a ≤ j ∧ j < b).card

theorem count_add {a b c : Nat} (s : Finset Nat) (hab : a ≤ b) (hbc : b ≤ c) :
    count s a c = count s a b + count s b c := by
  rw [count, count, count, ← Finset.card_union_of_disjoint]
  · congr 1
    ext j
    simp only [Finset.mem_union, Finset.mem_filter]
    constructor
    · intro hmem
      obtain ⟨hj, h⟩ := hmem
      by_cases hjb : j < b
      · exact Or.inl ⟨hj, h.1, hjb⟩
      · exact Or.inr ⟨hj, Nat.le_of_not_lt hjb, h.2⟩
    · intro hmem
      rcases hmem with ⟨hj, h⟩ | ⟨hj, h⟩
      · exact ⟨hj, h.1, by omega⟩
      · exact ⟨hj, by omega, h.2⟩
  · rw [Finset.disjoint_left]
    intro j hj hj'
    have h := (Finset.mem_filter.1 hj).2
    have h' := (Finset.mem_filter.1 hj').2
    omega

theorem count_eq_zero {s : Finset Nat} {a b : Nat} (h : ∀ j ∈ s, a ≤ j → b ≤ j) :
    count s a b = 0 := by
  rw [count, Finset.card_eq_zero, Finset.filter_eq_empty_iff]
  intro j hj hab
  have := h j hj hab.1
  omega

/-- A range of one index has a member only if that is it. -/
theorem count_one (s : Finset Nat) (j : Nat) :
    count s j (j + 1) = if j ∈ s then 1 else 0 := by
  have hrange : s.filter (fun k => j ≤ k ∧ k < j + 1) = s.filter (· = j) := by
    ext k
    simp only [Finset.mem_filter, and_congr_right_iff]
    intro _
    omega
  rw [count, hrange, Finset.filter_eq']
  split <;> simp

theorem count_erase {s : Finset Nat} {i : Nat} (hi : i ∈ s) (a b : Nat) :
    count (s.erase i) a b = if a ≤ i ∧ i < b then count s a b - 1 else count s a b := by
  rw [count, count, Finset.filter_erase]
  split
  · rename_i h
    exact Finset.card_erase_of_mem (Finset.mem_filter.2 ⟨hi, h⟩)
  · rename_i h
    rw [Finset.erase_eq_of_notMem]
    exact fun hmem => h (Finset.mem_filter.1 hmem).2

theorem count_range (len a b : Nat) (hb : b ≤ len) : count (Finset.range len) a b = b - a := by
  have hrange : (Finset.range len).filter (fun j => a ≤ j ∧ j < b) =
      (Finset.range b).filter (a ≤ ·) := by
    ext j
    simp only [Finset.mem_filter, Finset.mem_range]
    omega
  have hbelow : (Finset.range b).filter (¬a ≤ ·) = Finset.range (min a b) := by
    ext j
    simp only [Finset.mem_filter, Finset.mem_range]
    omega
  have hsplit := Finset.card_filter_add_card_filter_not (s := Finset.range b) (a ≤ ·)
  rw [hbelow, Finset.card_range, Finset.card_range] at hsplit
  rw [count, hrange]
  omega

variable {len : Nat}

/-- Every node counts the members of `s` in its range. -/
structure Counts (tree : RankTree len) (s : Finset Nat) : Prop where
  lt : ∀ j ∈ s, j < len
  node : ∀ (i : Nat) (hi : i < len + 1), 0 < i →
    tree.nodes.get ⟨i, hi⟩ = count s (i - lowestBit i) i

theorem counts_full (len : Nat) : Counts (full len) (Finset.range len) := by
  refine ⟨fun j hj => Finset.mem_range.1 hj, ?_⟩
  intro i hi hpos
  rw [count_range len _ _ (Nat.le_of_lt_succ hi), full]
  have hnode : (Vector.ofFn fun i : Fin (len + 1) => lowestBit i).get ⟨i, hi⟩ = lowestBit i :=
    Vector.getElem_ofFn _
  rw [hnode]
  have := lowestBit_le (i := i)
  omega

/-! ### The descent -/

/-- The descent finds the member with `rank` members below it, counted from the start of a range
of `2 ^ bits` indexes that holds more than `rank` of them. -/
theorem descend_spec {tree : RankTree len} {s : Finset Nat} (h : Counts tree s) (bits : Nat) :
    ∀ q rank : Nat, rank < count s (2 ^ bits * q) (2 ^ bits * (q + 1)) →
      tree.descend bits (2 ^ bits * q) rank ∈ s ∧
        2 ^ bits * q ≤ tree.descend bits (2 ^ bits * q) rank ∧
        count s (2 ^ bits * q) (tree.descend bits (2 ^ bits * q) rank) = rank := by
  induction bits with
  | zero =>
    intro q rank hrank
    simp only [pow_zero, one_mul, descend] at hrank ⊢
    rw [count_one] at hrank
    split at hrank
    · rename_i hq
      refine ⟨hq, Nat.le_refl q, ?_⟩
      rw [count_eq_zero (fun j _ hj => hj)]
      omega
    · omega
  | succ bits ih =>
    intro q rank hrank
    have hstart : 2 ^ (bits + 1) * q = 2 ^ bits * (2 * q) := by ring
    have hend : 2 ^ (bits + 1) * (q + 1) = 2 ^ bits * (2 * q + 1 + 1) := by ring
    have hmiddle : 2 ^ bits * (2 * q) + 1 <<< bits = 2 ^ bits * (2 * q + 1) := by
      rw [Nat.one_shiftLeft]
      ring
    have hle₁ : 2 ^ bits * (2 * q) ≤ 2 ^ bits * (2 * q + 1) := Nat.mul_le_mul_left _ (by omega)
    have hle₂ : 2 ^ bits * (2 * q + 1) ≤ 2 ^ bits * (2 * q + 1 + 1) :=
      Nat.mul_le_mul_left _ (by omega)
    rw [hstart, hend, count_add s hle₁ hle₂] at hrank
    rw [hstart, descend]
    simp only [hmiddle]
    split
    · rename_i hnode
      have hpos : 0 < 2 ^ bits * (2 * q + 1) := by positivity
      have hlow : 2 ^ bits * (2 * q + 1) - 2 ^ bits = 2 ^ bits * (2 * q) := by
        rw [show 2 ^ bits * (2 * q + 1) = 2 ^ bits * (2 * q) + 2 ^ bits by ring,
          Nat.add_sub_cancel]
      rw [h.node _ hnode hpos, lowestBit_mul_odd, hlow]
      split
      · rename_i hcount
        obtain ⟨hmem, hge, hbelow⟩ := ih (2 * q + 1)
          (rank - count s (2 ^ bits * (2 * q)) (2 ^ bits * (2 * q + 1))) (by omega)
        refine ⟨hmem, hle₁.trans hge, ?_⟩
        rw [count_add s hle₁ hge, hbelow]
        omega
      · rename_i hcount
        exact ih (2 * q) rank (by omega)
    · rename_i hnode
      have hzero : count s (2 ^ bits * (2 * q + 1)) (2 ^ bits * (2 * q + 1 + 1)) = 0 := by
        refine count_eq_zero ?_
        intro j hj hge
        have := h.lt j hj
        omega
      exact ih (2 * q) rank (by omega)

/-! ### The update -/

/-- Starting from a node that covers `j`, the update takes one from that node and every node after
it that covers `j`. -/
theorem get_lower {j : Nat} (nodes : Vector Nat (len + 1)) (i : Nat) (hi : 0 < i) (h : Covers i j)
    (k : Nat) (hk : k < len + 1) :
    (lower nodes i hi).get ⟨k, hk⟩ =
      if i ≤ k ∧ Covers k j then nodes.get ⟨k, hk⟩ - 1 else nodes.get ⟨k, hk⟩ := by
  fun_induction lower nodes i hi with
  | case1 nodes i hi hlt ih =>
    rw [ih (covers_next h)]
    have hstep := lowestBit_pos hi
    rcases Nat.lt_trichotomy k i with hki | rfl | hik
    · have hget : (nodes.set i (nodes.get ⟨i, hlt⟩ - 1)).get ⟨k, hk⟩ = nodes.get ⟨k, hk⟩ :=
        Vector.getElem_set_ne _ _ (by omega)
      rw [hget, if_neg (by omega), if_neg (by omega)]
    · have hget : (nodes.set k (nodes.get ⟨k, hlt⟩ - 1)).get ⟨k, hk⟩ = nodes.get ⟨k, hk⟩ - 1 :=
        Vector.getElem_set_self _
      rw [hget, if_neg (by omega), if_pos ⟨Nat.le_refl k, h⟩]
    · have hget : (nodes.set i (nodes.get ⟨i, hlt⟩ - 1)).get ⟨k, hk⟩ = nodes.get ⟨k, hk⟩ :=
        Vector.getElem_set_ne _ _ (by omega)
      rw [hget]
      by_cases hnext : i + lowestBit i ≤ k
      · simp only [hnext, Nat.le_of_lt hik, true_and]
      · have hnot := not_covers_between h hik (Nat.lt_of_not_le hnext)
        rw [if_neg (fun hc => hnot hc.2), if_neg (fun hc => hnot hc.2)]
  | case2 nodes i hi hlt => rw [if_neg (by omega)]

theorem fst_take (tree : RankTree len) (rank : Nat) :
    (tree.take rank).1 = tree.descend (len.log2 + 1) 0 rank := rfl

theorem nodes_take (tree : RankTree len) (rank : Nat) :
    (tree.take rank).2.nodes = lower tree.nodes ((tree.take rank).1 + 1) (Nat.succ_pos _) := rfl

/-- The update leaves the counts of the members other than the one taken out. -/
theorem counts_take {tree : RankTree len} {s : Finset Nat} (h : Counts tree s) {rank : Nat}
    (hmem : (tree.take rank).1 ∈ s) : Counts (tree.take rank).2 (s.erase (tree.take rank).1) := by
  refine ⟨fun j hj => h.lt j (Finset.mem_of_mem_erase hj), ?_⟩
  intro i hi hpos
  rw [nodes_take, get_lower _ _ _ (covers_succ _) i hi, h.node i hi hpos, count_erase hmem]
  have hiff : ((tree.take rank).1 + 1 ≤ i ∧ Covers i (tree.take rank).1) ↔
      (i - lowestBit i ≤ (tree.take rank).1 ∧ (tree.take rank).1 < i) := by
    unfold Covers
    omega
  simp only [hiff]

/-- Taking by rank hands out the member with that many members below it, and leaves the counts of
the others. -/
theorem take_spec {tree : RankTree len} {s : Finset Nat} (h : Counts tree s) {rank : Nat}
    (hrank : rank < s.card) :
    (tree.take rank).1 ∈ s ∧ count s 0 (tree.take rank).1 = rank ∧
      Counts (tree.take rank).2 (s.erase (tree.take rank).1) := by
  have hall : count s 0 (2 ^ (len.log2 + 1)) = s.card := by
    rw [count, Finset.filter_true_of_mem]
    intro j hj
    have h₁ := h.lt j hj
    have h₂ := Nat.lt_log2_self (n := len)
    exact ⟨Nat.zero_le j, by omega⟩
  have hdescend := descend_spec h (len.log2 + 1) 0 rank
  rw [mul_zero, zero_add, mul_one, hall, ← fst_take] at hdescend
  obtain ⟨hmem, -, hbelow⟩ := hdescend hrank
  exact ⟨hmem, hbelow, counts_take h hmem⟩

end RankTree

end UrReplay
