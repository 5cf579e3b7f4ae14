/-!
# UrReplay.Random.AliasTable

Weighted choice among `n` indexes by the alias method: after one pass over the weights, a choice
takes two draws and two look-ups.

* The weights are scaled so that their mean is one. Each index gets a column of height one; a column
  that its own weight does not fill is filled up by one other index, its alias.
* `Columns.pair` hands out the columns one by one. It takes an index with too little and an index
  with enough, gives the first its column, and lowers the second by what it lent.
* The numbers come from any type with the operations of `Weight`, of which nothing is assumed. So
  the shape of the table does not depend on how the arithmetic rounds.
-/

namespace UrReplay

/-- The arithmetic of weights. -/
class Weight (ω : Type) where
  ofNat : Nat → ω
  add : ω → ω → ω
  sub : ω → ω → ω
  mul : ω → ω → ω
  div : ω → ω → ω
  lt : ω → ω → Bool
  /-- The whole part, zero if there is none. -/
  floor : ω → Nat

instance : Weight Float where
  ofNat := Float.ofNat
  add := Float.add
  sub := Float.sub
  mul := Float.mul
  div := Float.div
  lt a b := a < b
  floor x := x.toUInt64.toNat

/-- The share of a column that its index keeps, and the index that fills the rest: its alias. -/
structure Column (ω : Type) (n : Nat) where
  keep : ω
  filler : Fin n

/-- A column for each index. -/
structure AliasTable (ω : Type) (n : Nat) where
  columns : Vector (Column ω n) n

namespace AliasTable

variable {ω : Type} {n : Nat} [Weight ω]

/-- The number one. -/
def one : ω := Weight.ofNat 1

/-- The weights times their number, divided by their sum. -/
def scale (weights : Vector ω n) : Vector ω n :=
  let total := weights.foldl Weight.add (Weight.ofNat 0)
  weights.map fun w => Weight.div (Weight.mul w (Weight.ofNat n)) total

/-- The columns handed out for the indexes of `small`, which have too little, and of `large`, which
have enough. They come out last column first. When one of the lists runs out, the indexes of the
other keep their columns to themselves. -/
def pair (hn : 0 < n) (scaled : Vector ω n) (columns : List (Fin n × Column ω n)) :
    (small large : List (Fin n)) → List (Fin n × Column ω n)
  | less :: small, more :: large =>
    let lent := scaled.get less
    let columns := (less, ⟨lent, more⟩) :: columns
    let rest := Weight.sub (Weight.add (scaled.get more) lent) one
    let scaled := scaled.set more rest
    if Weight.lt rest one then pair hn scaled columns (more :: small) large
    else pair hn scaled columns small (more :: large)
  | small, large => (large ++ small).foldl (fun columns i => (i, ⟨one, ⟨0, hn⟩⟩) :: columns) columns
termination_by small large => small.length + large.length

/-- The columns that the scaled weights give, each with its index. -/
def columnsOf (hn : 0 < n) (scaled : Vector ω n) : List (Fin n × Column ω n) :=
  let isSmall (i : Fin n) : Bool := Weight.lt (scaled.get i) one
  pair hn scaled [] ((List.finRange n).filter isSmall) ((List.finRange n).filter (!isSmall ·))

/-- The table for some weights. -/
def ofWeights (hn : 0 < n) (weights : Vector ω n) : AliasTable ω n :=
  ⟨(columnsOf hn (scale weights)).foldl (fun columns (i, column) => columns.set i column)
    (Vector.replicate n ⟨one, ⟨0, hn⟩⟩)⟩

/-- The index that two draws between zero and one choose: the first picks a column, the second
decides between its index and its alias. -/
def choose (hn : 0 < n) (table : AliasTable ω n) (first second : ω) : Fin n :=
  let i := min (Weight.floor (Weight.mul (Weight.ofNat n) first)) (n - 1)
  have hi : i < n := by omega
  let column := table.columns.get ⟨i, hi⟩
  if Weight.lt second column.keep then ⟨i, hi⟩ else column.filler

end AliasTable

end UrReplay
