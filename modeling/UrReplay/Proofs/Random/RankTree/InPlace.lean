import UrReplay.Proofs.Loop
import UrReplay.Proofs.Random.RankTree
/-!
# UrReplay.Proofs.Random.RankTree.InPlace

The tree of counts as an array that is changed in place: how the array is filled, and the loops that a
call runs on it, with every reading, writing and subtraction checked.

* One pass over the nodes fills the array: each node hands its count on to the next node that covers it
  (`filled?`). What node `k` has been handed by the time its turn comes is all its range but the last
  index (`sum_handed`), so the pass leaves the full tree (`filled?_eq`).
* A call doubles a step, descends and updates (`HandsOut`). What could go wrong is that the update finds
  a node at zero. It does not if the index taken out is there: each node of the update covers it, and so
  counts one at least (`loop_lower`).
* The lowest bit doubles at least from one node of the update to the next, so the update is as short as
  the descent.
-/

namespace UrReplay

/-! ### More on lowest bits -/

/-- The lowest bit of a number is what the number and its negation have in common, in any word that holds
it. -/
theorem lowestBit_toNat {w : Nat} (x : BitVec w) : lowestBit x.toNat = (x &&& -x).toNat := by
  rcases Nat.eq_zero_or_pos x.toNat with hzero | hpos
  · have hx : x = 0#w := BitVec.eq_of_toNat_eq (by simpa using hzero)
    subst hx
    simp [lowestBit]
  have hone : (1#w).toNat = 1 := Nat.mod_eq_of_lt (Nat.lt_of_le_of_lt hpos x.isLt)
  have hpred : (x - 1#w).toNat = x.toNat - 1 := by
    rw [BitVec.toNat_sub_of_le (by rwa [BitVec.le_def, hone]), hone]
  have hneg : -x = ~~~(x - 1#w) := by
    rw [BitVec.not_sub_one_eq_not_add_one, BitVec.neg_eq_not_add]
  -- A word is made up of the bits that its predecessor has and those that it lacks.
  have hdisjoint : (x &&& -x) &&& (x &&& (x - 1#w)) = 0#w := by
    rw [hneg]
    ext i hi
    simp only [BitVec.getElem_and, BitVec.getElem_not, BitVec.getElem_zero]
    cases (x - 1#w)[i] <;> simp
  have hsplit : (x &&& -x) + (x &&& (x - 1#w)) = x := by
    rw [BitVec.add_eq_or_of_and_eq_zero _ _ hdisjoint, hneg]
    ext i hi
    simp only [BitVec.getElem_or, BitVec.getElem_and, BitVec.getElem_not]
    cases (x - 1#w)[i] <;> simp
  have hle : x &&& (x - 1#w) ≤ x := by
    rw [BitVec.le_def, BitVec.toNat_and]
    exact Nat.and_le_left
  rw [BitVec.eq_sub_iff_add_eq.2 hsplit, BitVec.toNat_sub_of_le hle, BitVec.toNat_and, hpred,
    lowestBit]

/-- A power of two below the lowest bit of a number is the lowest bit of the number less that power. -/
theorem exists_mul_odd_add {a b : Nat} (hba : b < a) (q : Nat) :
    ∃ r, 2 ^ a * (2 * q + 1) = 2 ^ b * (2 * r + 1) + 2 ^ b := by
  obtain ⟨c, rfl⟩ := Nat.exists_eq_add_of_lt hba
  obtain ⟨r, hr⟩ := Nat.exists_eq_succ_of_ne_zero (n := 2 ^ c * (2 * q + 1)) (by positivity)
  refine ⟨r, ?_⟩
  calc 2 ^ (b + c + 1) * (2 * q + 1) = 2 ^ b * 2 * (2 ^ c * (2 * q + 1)) := by ring
    _ = 2 ^ b * (2 * r + 1) + 2 ^ b := by rw [hr, Nat.succ_eq_add_one]; ring

/-- Adding its lowest bit to a number leaves a higher lowest bit. -/
theorem lt_of_add_lowestBit {a b q r : Nat}
    (h : 2 ^ b * (2 * r + 1) + 2 ^ b = 2 ^ a * (2 * q + 1)) : b < a := by
  by_contra hab
  obtain ⟨c, rfl⟩ := Nat.exists_eq_add_of_le (Nat.le_of_not_lt hab)
  have hmul : 2 ^ a * (2 ^ c * (2 * r + 2)) = 2 ^ a * (2 * q + 1) := by
    rw [← h]
    ring
  have hodd : 2 * (2 ^ c * (r + 1)) = 2 * q + 1 := by
    rw [← Nat.eq_of_mul_eq_mul_left (Nat.two_pow_pos a) hmul]
    ring
  omega

/-- From one node to the next, the lowest bit doubles at least. -/
theorem two_mul_lowestBit_le {i : Nat} (hi : 0 < i) :
    2 * lowestBit i ≤ lowestBit (i + lowestBit i) := by
  obtain ⟨b, r, rfl⟩ := exists_mul_odd hi
  obtain ⟨a, q, hnext⟩ := exists_mul_odd (Nat.add_pos_left hi (lowestBit (2 ^ b * (2 * r + 1))))
  rw [lowestBit_mul_odd] at hnext ⊢
  rw [hnext, lowestBit_mul_odd, ← pow_succ']
  exact Nat.pow_le_pow_right Nat.two_pos (lt_of_add_lowestBit hnext)

namespace RankTree

variable {len : Nat}

/-! ### The loops -/

/-- Node `i` gets one for its own index, and hands its count on to the next node that covers it. -/
def fillStep (len : Nat) (nodes : Array Nat) (i : Nat) : Option (Array Nat) := do
  let own ← nodes[i]?
  let nodes ← put? nodes i (own + 1)
  let parent := i + lowestBit i
  if parent ≤ len then
    let above ← nodes[parent]?
    let own ← nodes[i]?
    put? nodes parent (above + own)
  else return nodes

/-- The nodes that one pass over them leaves, from the first to the last. -/
def filled? (len : Nat) : Option (Array Nat) :=
  (List.range' 1 len).foldlM (fillStep len) (Array.replicate (len + 1) 0)

/-- The step is doubled as long as that keeps it within `len`. -/
def doubleTurn (len step : Nat) : Option (Turn Nat) :=
  if step * 2 ≤ len then some (.next (step * 2)) else some .over

/-- The place that the descent has reached. -/
structure Place where
  step : Nat
  position : Nat
  rest : Nat

/-- One turn of the descent: goes one step to the right if the node there counts no more than what is left
of the rank, and halves the step. -/
def descendTurn (len : Nat) (nodes : Array Nat) (place : Place) : Option (Turn Place) :=
  if 0 < place.step then do
    let next := place.position + place.step
    if next ≤ len then
      let count ← nodes[next]?
      if count ≤ place.rest then
        let rest ← less? place.rest count
        return .next ⟨place.step / 2, next, rest⟩
      else return .next { place with step := place.step / 2 }
    else return .next { place with step := place.step / 2 }
  else return .over

/-- One turn of the update: takes one from node `i`, and goes on with the next node. -/
def lowerTurn (len : Nat) : Array Nat × Nat → Option (Turn (Array Nat × Nat))
  | (nodes, i) =>
    if i ≤ len then do
      let count ← nodes[i]?
      let count ← less? count 1
      let nodes ← put? nodes i count
      return .next (nodes, i + lowestBit i)
    else return .over

/-- In place, a call hands out `i` and turns `nodes` into `nodes'`. It runs three loops one after another,
and none of them takes more than `most` turns. -/
def HandsOut (most : Nat) (nodes : Array Nat) (rank i : Nat) (nodes' : Array Nat) : Prop :=
  ∃ len step rest past, nodes.size = len + 1 ∧
    (∃ n ≤ most, Loop (doubleTurn len) n 1 step) ∧
    (∃ n ≤ most, Loop (descendTurn len nodes) n ⟨step, 0, rank⟩ ⟨0, i, rest⟩) ∧
    (∃ n ≤ most, Loop (lowerTurn len) n (nodes, i + 1) (nodes', past))

/-! ### Filling the array -/

/-- The ranges of the nodes that hand their counts on to node `k` make up its range, all but the last
index. -/
theorem sum_handed {k m : Nat} (hk : 0 < k) (hm : k ≤ m + 1) :
    (∑ i ∈ Finset.range (m + 1), if i + lowestBit i = k then lowestBit i else 0) + 1 =
      lowestBit k := by
  obtain ⟨a, q, rfl⟩ := exists_mul_odd hk
  -- These nodes lie one smaller power of two each below node `k`.
  have hsum : ∑ b ∈ Finset.range a, 2 ^ b =
      ∑ i ∈ (Finset.range (m + 1)).filter (fun i => i + lowestBit i = 2 ^ a * (2 * q + 1)),
        lowestBit i := by
    refine Finset.sum_nbij (fun b => 2 ^ a * (2 * q + 1) - 2 ^ b) ?_ ?_ ?_ ?_
    · intro b hb
      obtain ⟨r, hr⟩ := exists_mul_odd_add (Finset.mem_range.1 hb) q
      have hpos := Nat.two_pow_pos b
      rw [Finset.mem_filter, Finset.mem_range, hr, Nat.add_sub_cancel, lowestBit_mul_odd]
      exact ⟨by omega, rfl⟩
    · intro b hb c hc hbc
      obtain ⟨r, hr⟩ := exists_mul_odd_add (Finset.mem_range.1 hb) q
      obtain ⟨s, hs⟩ := exists_mul_odd_add (Finset.mem_range.1 hc) q
      dsimp only at hbc
      have hpow : 2 ^ b = 2 ^ c := by omega
      exact Nat.pow_right_injective (Nat.le_refl 2) hpow
    · intro i hi
      obtain ⟨-, hnext⟩ := Finset.mem_filter.1 hi
      have hpos : 0 < i := by
        rcases Nat.eq_zero_or_pos i with rfl | hpos
        · rw [Nat.eq_zero_of_le_zero (lowestBit_le (i := 0))] at hnext
          omega
        · exact hpos
      obtain ⟨b, r, rfl⟩ := exists_mul_odd hpos
      rw [lowestBit_mul_odd] at hnext
      refine ⟨b, Finset.mem_coe.2 (Finset.mem_range.2 (lt_of_add_lowestBit hnext)), ?_⟩
      dsimp only
      rw [← hnext, Nat.add_sub_cancel]
    · intro b hb
      obtain ⟨r, hr⟩ := exists_mul_odd_add (Finset.mem_range.1 hb) q
      rw [hr, Nat.add_sub_cancel, lowestBit_mul_odd]
  rw [← Finset.sum_filter, ← hsum, Nat.geomSum_eq (Nat.le_refl 2), Nat.div_one, lowestBit_mul_odd,
    Nat.sub_add_cancel Nat.one_le_two_pow]

/-- The array of nodes that holds `f k` at node `k`. -/
def arrayOf (len : Nat) (f : Nat → Nat) : Array Nat := Array.ofFn fun k : Fin (len + 1) => f k

theorem getElem?_arrayOf (f : Nat → Nat) {i : Nat} (hi : i ≤ len) :
    (arrayOf len f)[i]? = some (f i) := by
  rw [arrayOf, Array.getElem?_ofFn, dif_pos (Nat.lt_succ_of_le hi)]

theorem put?_arrayOf (f : Nat → Nat) {i : Nat} (hi : i ≤ len) (count : Nat) :
    put? (arrayOf len f) i count = some (arrayOf len (Function.update f i count)) := by
  have hlt : i < (arrayOf len f).size := by
    rw [arrayOf, Array.size_ofFn]
    exact Nat.lt_succ_of_le hi
  rw [put?_of_lt hlt]
  refine congrArg some (Array.ext ?_ ?_)
  · simp [arrayOf]
  · intro k hk hk'
    simp [arrayOf, Array.getElem_set, Function.update_apply, eq_comm]

theorem arrayOf_congr {f g : Nat → Nat} (h : ∀ k ≤ len, f k = g k) : arrayOf len f = arrayOf len g :=
  congrArg Array.ofFn (funext fun k => h k (Nat.le_of_lt_succ k.isLt))

/-- What node `k` counts when the pass has come past the first `m` nodes: the ranges of those of them
that hand their counts on to it, and its own index if it is one of them. -/
def filling (m k : Nat) : Nat :=
  (∑ i ∈ Finset.range (m + 1), if i + lowestBit i = k then lowestBit i else 0) +
    if 0 < k ∧ k ≤ m then 1 else 0

theorem filling_zero (k : Nat) : filling 0 k = 0 := by
  have hzero : lowestBit 0 = 0 := rfl
  rw [filling, Nat.zero_add, Finset.sum_range_one, hzero]
  split_ifs <;> omega

theorem filling_of_le {m k : Nat} (h : k ≤ m) : filling m k = lowestBit k := by
  rcases Nat.eq_zero_or_pos k with rfl | hpos
  · have hzero : lowestBit 0 = 0 := rfl
    rw [filling, hzero, if_neg (fun hk => absurd hk.1 (Nat.lt_irrefl 0)), Nat.add_zero]
    refine Finset.sum_eq_zero ?_
    intro i _
    split <;> omega
  · rw [filling, if_pos ⟨hpos, h⟩, sum_handed hpos (h.trans (Nat.le_succ m))]

/-- Before its turn, a node lacks only its own index. -/
theorem filling_next (m : Nat) : filling m (m + 1) + 1 = lowestBit (m + 1) := by
  rw [filling, if_neg (by omega), Nat.add_zero, sum_handed m.succ_pos (Nat.le_refl _)]

/-- Past one more node, its own count has its own index, and the next node that covers it has its count. -/
theorem filling_succ (m k : Nat) :
    filling (m + 1) k =
      if k = m + 1 then filling m k + 1
      else if k = m + 1 + lowestBit (m + 1) then filling m k + lowestBit (m + 1)
      else filling m k := by
  have hbit := lowestBit_pos m.succ_pos
  rw [filling, Finset.sum_range_succ, filling]
  split_ifs <;> omega

/-- A step of the pass takes it past one more node. -/
theorem fillStep_filling {m : Nat} (hm : m < len) :
    fillStep len (arrayOf len (filling m)) (m + 1) = some (arrayOf len (filling (m + 1))) := by
  have hbit := lowestBit_pos m.succ_pos
  have hown := filling_next m
  simp only [fillStep, getElem?_arrayOf _ hm, Option.bind_eq_bind, Option.bind_some,
    put?_arrayOf _ hm, Function.update_self]
  by_cases hparent : m + 1 + lowestBit (m + 1) ≤ len
  · simp only [hparent, if_true, getElem?_arrayOf _ hparent, put?_arrayOf _ hparent,
      Option.bind_some]
    refine congrArg some (arrayOf_congr ?_)
    intro k hk
    rw [filling_succ]
    simp only [Function.update_apply]
    split_ifs <;> grind
  · simp only [hparent, if_false]
    refine congrArg some (arrayOf_congr ?_)
    intro k hk
    rw [filling_succ]
    simp only [Function.update_apply]
    split_ifs <;> grind

/-- The pass leaves the full tree. -/
theorem filled?_eq (len : Nat) : filled? len = some (full len).nodes.toArray := by
  have hsteps (m : Nat) (hm : m ≤ len) :
      (List.range' 1 m).foldlM (fillStep len) (Array.replicate (len + 1) 0) =
        some (arrayOf len (filling m)) := by
    induction m with
    | zero =>
        refine congrArg some (Array.ext ?_ ?_)
        · simp [arrayOf]
        · intro k hk hk'
          simp [arrayOf, filling_zero]
    | succ m ih =>
        rw [List.range'_concat, List.foldlM_append, ih (Nat.le_of_succ_le hm), Nat.one_mul,
          Nat.add_comm 1 m]
        simp [fillStep_filling hm]
  rw [filled?, hsteps len (Nat.le_refl len)]
  refine congrArg some (Array.ext ?_ ?_)
  · simp [arrayOf, full]
  · intro k hk hk'
    have hle : k ≤ len := by
      rw [arrayOf, Array.size_ofFn] at hk
      exact Nat.le_of_lt_succ hk
    simpa [arrayOf, full] using filling_of_le hle

/-! ### A call -/

/-- Doubling ends at the highest power of two within `len`. -/
theorem loop_double (len d : Nat) :
    ∀ k, k + d = len.log2 → Loop (doubleTurn len) d (2 ^ k) (2 ^ len.log2) := by
  induction d with
  | zero =>
    intro k hk
    have hlt := Nat.lt_log2_self (n := len)
    rw [← hk, Nat.add_zero] at hlt ⊢
    refine .over (if_neg ?_)
    rw [← pow_succ]
    exact Nat.not_le_of_lt hlt
  | succ d ih =>
    intro k hk
    have hlen : len ≠ 0 := by
      rintro rfl
      simp at hk
    have hle : 2 ^ k * 2 ≤ len := by
      rw [← pow_succ, ← Nat.le_log2 hlen]
      omega
    have hturn : doubleTurn len (2 ^ k) = some (.next (2 ^ (k + 1))) := by
      rw [doubleTurn, if_pos hle, pow_succ]
    exact .next hturn (ih (k + 1) (by omega))

/-- The descent takes a turn for each bit. -/
theorem loop_descend (tree : RankTree len) (bits position rank : Nat) :
    ∃ rest, Loop (descendTurn len tree.nodes.toArray) bits ⟨2 ^ bits / 2, position, rank⟩
      ⟨0, tree.descend bits position rank, rest⟩ := by
  induction bits generalizing position rank with
  | zero => exact ⟨rank, .over rfl⟩
  | succ bits ih =>
    have hstep : 2 ^ (bits + 1) / 2 = 2 ^ bits := by rw [pow_succ, Nat.mul_div_cancel _ Nat.two_pos]
    have hpos : 0 < 2 ^ bits := Nat.two_pow_pos bits
    rw [hstep, descend]
    simp only [Nat.one_shiftLeft]
    split
    · rename_i hnode
      split
      · rename_i hcount
        obtain ⟨rest, hloop⟩ := ih (position + 2 ^ bits)
          (rank - tree.nodes.get ⟨position + 2 ^ bits, hnode⟩)
        refine ⟨rest, .next ?_ hloop⟩
        simp only [descendTurn, if_pos hpos, if_pos (Nat.le_of_lt_succ hnode),
          toArray_get? _ hnode, if_pos hcount, less?_of_le hcount, Option.bind_eq_bind,
          Option.bind_some]
        rfl
      · rename_i hcount
        obtain ⟨rest, hloop⟩ := ih position rank
        refine ⟨rest, .next ?_ hloop⟩
        simp only [descendTurn, if_pos hpos, if_pos (Nat.le_of_lt_succ hnode),
          toArray_get? _ hnode, if_neg hcount, Option.bind_eq_bind, Option.bind_some]
        rfl
    · rename_i hnode
      obtain ⟨rest, hloop⟩ := ih position rank
      refine ⟨rest, .next ?_ hloop⟩
      have hle : ¬position + 2 ^ bits ≤ len := fun hle => hnode (Nat.lt_succ_of_le hle)
      simp only [descendTurn, if_pos hpos, if_neg hle]
      rfl

/-- From a node that covers an index, the update runs to its end if the nodes that cover the index count
one at least. The lowest bit has doubled with each turn, and is at most `len` in the last one. -/
theorem loop_lower {j : Nat} (nodes : Vector Nat (len + 1)) (i : Nat) (hi : 0 < i) (h : Covers i j)
    (hnodes : ∀ (k : Nat) (hk : k < len + 1), i ≤ k → Covers k j → 0 < nodes.get ⟨k, hk⟩) :
    ∃ n past, (∀ m < n, 2 ^ m * lowestBit i ≤ len) ∧
      Loop (lowerTurn len) n (nodes.toArray, i) ((lower nodes i hi).toArray, past) := by
  fun_induction lower nodes i hi with
  | case1 nodes i hi hlt ih =>
    have hbit := lowestBit_pos hi
    have hone : 1 ≤ nodes.get ⟨i, hlt⟩ := hnodes i hlt (Nat.le_refl i) h
    -- The nodes after this one have not changed yet.
    have hnodes' (k : Nat) (hk : k < len + 1) (hik : i + lowestBit i ≤ k) (hc : Covers k j) :
        0 < (nodes.set i (nodes.get ⟨i, hlt⟩ - 1)).get ⟨k, hk⟩ := by
      have hget : (nodes.set i (nodes.get ⟨i, hlt⟩ - 1)).get ⟨k, hk⟩ = nodes.get ⟨k, hk⟩ :=
        Vector.getElem_set_ne _ _ (by omega)
      rw [hget]
      exact hnodes k hk (by omega) hc
    obtain ⟨n, past, hbits, hloop⟩ := ih (covers_next h) hnodes'
    refine ⟨n + 1, past, ?_, .next ?_ hloop⟩
    · intro m hm
      cases m with
      | zero =>
        rw [pow_zero, Nat.one_mul]
        exact (lowestBit_le (i := i)).trans (Nat.le_of_lt_succ hlt)
      | succ m =>
        calc 2 ^ (m + 1) * lowestBit i = 2 ^ m * (2 * lowestBit i) := by ring
          _ ≤ 2 ^ m * lowestBit (i + lowestBit i) := Nat.mul_le_mul_left _ (two_mul_lowestBit_le hi)
          _ ≤ len := hbits m (Nat.lt_of_succ_lt_succ hm)
    · simp only [lowerTurn, if_pos (Nat.le_of_lt_succ hlt), toArray_get? _ hlt, less?_of_le hone,
        put?_toArray _ hlt, Option.bind_eq_bind, Option.bind_some]
      rfl
  | case2 nodes i hi hlt =>
    refine ⟨0, i, fun m hm => absurd hm (Nat.not_lt_zero m), .over ?_⟩
    rw [lowerTurn, if_neg (fun hle => hlt (Nat.lt_succ_of_le hle))]
    rfl

/-- In place, a call hands out what `take` hands out and leaves what it leaves. -/
theorem handsOut_take {tree : RankTree len} {s : Finset Nat} (h : Counts tree s) {rank : Nat}
    (hmem : (tree.take rank).1 ∈ s) :
    HandsOut (len.log2 + 1) tree.nodes.toArray rank (tree.take rank).1
      (tree.take rank).2.nodes.toArray := by
  obtain ⟨rest, hdescend⟩ := loop_descend tree (len.log2 + 1) 0 rank
  have hnodes (k : Nat) (hk : k < len + 1) (hc : Covers k (tree.take rank).1) :
      0 < tree.nodes.get ⟨k, hk⟩ := by
    rw [h.node k hk (Nat.zero_lt_of_lt hc.2), count, Finset.card_pos]
    exact ⟨_, Finset.mem_filter.2 ⟨hmem, hc⟩⟩
  obtain ⟨n, past, hbits, hlower⟩ := loop_lower tree.nodes ((tree.take rank).1 + 1)
    (Nat.succ_pos _) (covers_succ _) (fun k hk _ => hnodes k hk)
  refine ⟨len, 2 ^ len.log2, rest, past, by simp, ?_, ?_, ?_⟩
  · exact ⟨len.log2, Nat.le_succ _, loop_double len len.log2 0 (Nat.zero_add _)⟩
  · rw [pow_succ, Nat.mul_div_cancel _ Nat.two_pos] at hdescend
    exact ⟨_, Nat.le_refl _, hdescend⟩
  · refine ⟨n, ?_, hlower⟩
    cases n with
    | zero => exact Nat.zero_le _
    | succ m =>
      have hle : 2 ^ m ≤ len :=
        (Nat.le_mul_of_pos_right _ (lowestBit_pos (Nat.succ_pos _))).trans (hbits m (Nat.lt_succ_self m))
      have hlen : len ≠ 0 := Nat.pos_iff_ne_zero.1 ((Nat.two_pow_pos m).trans_le hle)
      exact Nat.succ_le_succ ((Nat.le_log2 hlen).2 hle)

end RankTree

end UrReplay
