/-!
# UrReplay.Random.RankTree

Taking indexes out of `0 … len - 1` by rank, in logarithmic time.

The indexes that remain are kept as counts in a binary indexed tree: node `i`, numbered from one,
counts the remaining indexes `j` with `i - lowestBit i ≤ j < i`. To find the index with a given
number of remaining indexes below it, `descend` adds bits to a position from the highest down; to
take an index out, `lower` subtracts one from every node that counts it.
-/

namespace UrReplay

/-- The lowest bit that is set in a number. -/
def lowestBit (i : Nat) : Nat := i - (i &&& (i - 1))

theorem lowestBit_pos {i : Nat} (h : 0 < i) : 0 < lowestBit i := by
  have : i &&& (i - 1) ≤ i - 1 := Nat.and_le_right
  unfold lowestBit
  omega

/-- How many of the indexes below `len` remain, counted at each node. Node zero is not used. -/
structure RankTree (len : Nat) where
  nodes : Vector Nat (len + 1)

namespace RankTree

variable {len : Nat}

/-- The tree in which every index remains. -/
def full (len : Nat) : RankTree len := ⟨Vector.ofFn fun i => lowestBit i⟩

/-- Adds to `position` the bits below `bits` that leave at most `rank` remaining indexes below it;
`rank` is what is left of the rank after those. -/
def descend (tree : RankTree len) : (bits position rank : Nat) → Nat
  | 0, position, _ => position
  | bits + 1, position, rank =>
    let next := position + 1 <<< bits
    if h : next < len + 1 then
      let count := tree.nodes.get ⟨next, h⟩
      if count ≤ rank then tree.descend bits next (rank - count)
      else tree.descend bits position rank
    else tree.descend bits position rank

/-- Subtracts one from node `i` and from every node above it. -/
def lower (nodes : Vector Nat (len + 1)) (i : Nat) (hi : 0 < i) : Vector Nat (len + 1) :=
  if h : i < len + 1 then
    lower (nodes.set i (nodes.get ⟨i, h⟩ - 1)) (i + lowestBit i) (by omega)
  else nodes
termination_by len + 1 - i
decreasing_by
  have := lowestBit_pos hi
  omega

/-- Takes out the index with `rank` remaining indexes below it. -/
def take (tree : RankTree len) (rank : Nat) : Nat × RankTree len :=
  let i := tree.descend (len.log2 + 1) 0 rank
  (i, ⟨lower tree.nodes (i + 1) i.succ_pos⟩)

/-- Takes out one index after another, and gives them in that order. -/
def takeAll (tree : RankTree len) (ranks : List Nat) : List Nat :=
  let step : RankTree len × List Nat → Nat → RankTree len × List Nat
    | (tree, taken), rank =>
      let (i, tree) := tree.take rank
      (tree, i :: taken)
  (ranks.foldl step (tree, [])).2.reverse

end RankTree

end UrReplay
