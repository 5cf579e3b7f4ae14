import UrReplay.Random.AliasTable
import UrReplay.Random.RankTree
import UrReplay.Random.Xoshiro
/-!
# UrReplay.Random.Sampling

Drawing indexes without replacement, and drawing how many to draw.

A sample is decided by its ranks: the rank of a draw says how many of the indexes that remain lie
below the one drawn. `ranks` draws those, and a `RankTree` turns them into indexes.
-/

namespace UrReplay.Xoshiro

/-- A whole number from zero to `bound - 1`. The product is cut down to that range, since it may be
rounded up to `bound`. -/
def nextBelow (g : Xoshiro) (bound : Nat) : Nat × Xoshiro :=
  let (unit, g) := g.nextUnit
  (min (unit * Float.ofNat bound).toUInt64.toNat (bound - 1), g)

/-- The ranks of `count` draws from `left` indexes, or of `left` draws if that is fewer, put in
front of `drawn` in reverse. -/
def ranksFrom (drawn : List Nat) : (left count : Nat) → Xoshiro → List Nat × Xoshiro
  | left + 1, count + 1, g =>
    let (rank, g) := g.nextBelow (left + 1)
    ranksFrom (rank :: drawn) left count g
  | _, _, g => (drawn.reverse, g)

/-- The ranks of `count` draws from `len` indexes, or of `len` draws if that is fewer. -/
def ranks (g : Xoshiro) (len count : Nat) : List Nat × Xoshiro := ranksFrom [] len count g

/-- Draws `count` of the indexes below `len` without replacement, in the order of the draws. -/
def sample (g : Xoshiro) (len count : Nat) : List Nat × Xoshiro :=
  let (ranks, g) := g.ranks len count
  ((RankTree.full len).takeAll ranks, g)

/-- How many of `len` fragments to mix: the number `i` has weight `1 / i`. -/
def degree (g : Xoshiro) (len : Nat) (hlen : 0 < len) : Nat × Xoshiro :=
  let weights : Vector Float len := Vector.ofFn fun i => 1.0 / Float.ofNat (i + 1)
  let (first, g) := g.nextUnit
  let (second, g) := g.nextUnit
  (((AliasTable.ofWeights hlen weights).choose hlen first second).val + 1, g)

end UrReplay.Xoshiro
