import UrReplay.Proofs.Loop
import UrReplay.Proofs.Random.AliasTable
/-!
# UrReplay.Proofs.Random.AliasTable.InPlace

The table of columns as two arrays that are filled in place, with plain numbers for indexes and every
reading and writing checked. The indexes that wait for a column stand on two stacks; which of them an index
is put back on is up to a rounded comparison.

* `Filling` is the state of the work. Its list `written` has an index for each time that a share was
  written, so that an index written twice would stand in it twice.
* `Mirrors` ties a filling to the columns that are handed out and the indexes that are left. A turn of the
  pairing loop keeps it, whichever way the comparison goes (`Mirrors.turn`): the columns are for distinct
  indexes, so no writing undoes another one.
* The induction is that of `pair`, on the number of indexes left (`ends_pair`).
-/

namespace UrReplay.AliasTable

variable {ω : Type} {n : Nat}

/-- A table while it is filled in place. -/
structure Filling (ω : Type) where
  /-- The scaled weights, lowered by what has been lent. -/
  scaled : Array ω
  /-- What each index keeps of its column. -/
  keeps : Array ω
  /-- What fills the rest of each column. -/
  fillers : Array Nat
  /-- The indexes with too little, the next one first. -/
  small : List Nat
  /-- The indexes with enough, the next one first. -/
  large : List Nat
  /-- The indexes whose share has been written, the last one first. -/
  written : List Nat

namespace Filling

/-- Writes what an index keeps. Nothing else does. -/
def keep? (f : Filling ω) (i : Nat) (share : ω) : Option (Filling ω) := do
  let keeps ← put? f.keeps i share
  return { f with keeps, written := i :: f.written }

theorem keep?_of_lt {f : Filling ω} {i : Nat} (h : i < f.keeps.size) (share : ω) :
    f.keep? i share =
      some { f with keeps := f.keeps.set i share h, written := i :: f.written } := by
  rw [keep?, put?_of_lt h]
  rfl

end Filling

/-! ### What is in the arrays -/

/-- The arrays hold some columns: at the index of each column stand its share and its filler, and at any
other index stands the first index as filler. The shares were written once for each column. -/
structure Shows (keeps : Array ω) (fillers : Array Nat) (written : List Nat)
    (columns : List (Fin n × Column ω n)) : Prop where
  size_keeps : keeps.size = n
  size_fillers : fillers.size = n
  column : ∀ p ∈ columns,
    keeps[p.1.val]? = some p.2.keep ∧ fillers[p.1.val]? = some p.2.filler.val
  untouched : ∀ i : Fin n, i ∉ columns.map Prod.fst → fillers[i.val]? = some 0
  written : written.Perm (columns.map fun p => p.1.val)

variable {keeps : Array ω} {fillers : Array Nat} {written : List Nat}
  {columns : List (Fin n × Column ω n)}

theorem shows_nil (n : Nat) (zero : ω) :
    Shows (n := n) (Array.replicate n zero) (Array.replicate n 0) [] [] := by
  refine ⟨Array.size_replicate, Array.size_replicate, ?_, ?_, List.Perm.refl _⟩
  · intro p hp
    exact absurd hp List.not_mem_nil
  · intro i _
    rw [Array.getElem?_replicate, if_pos i.isLt]

theorem Shows.perm {columns' : List (Fin n × Column ω n)}
    (h : Shows keeps fillers written columns) (hperm : columns.Perm columns') :
    Shows keeps fillers written columns' where
  size_keeps := h.size_keeps
  size_fillers := h.size_fillers
  column := fun p hp => h.column p (hperm.mem_iff.2 hp)
  untouched := fun i hi => h.untouched i (fun hmem => hi ((hperm.map Prod.fst).mem_iff.1 hmem))
  written := h.written.trans (hperm.map _)

/-- One more column, for an index that has none. -/
theorem Shows.cons (h : Shows keeps fillers written columns) {i : Fin n}
    (hi : i ∉ columns.map Prod.fst) (share : ω) (filler : Fin n) (hk : i.val < keeps.size)
    (hf : i.val < fillers.size) :
    Shows (keeps.set i.val share hk) (fillers.set i.val filler.val hf) (i.val :: written)
      ((i, ⟨share, filler⟩) :: columns) where
  size_keeps := (Array.size_set hk).trans h.size_keeps
  size_fillers := (Array.size_set hf).trans h.size_fillers
  column := by
    intro p hp
    rw [Array.getElem?_set, Array.getElem?_set]
    rcases List.mem_cons.1 hp with rfl | hp
    · exact ⟨if_pos rfl, if_pos rfl⟩
    · have hne : i.val ≠ p.1.val := by
        intro heq
        rw [Fin.ext heq] at hi
        exact hi (List.mem_map_of_mem hp)
      rw [if_neg hne, if_neg hne]
      exact h.column p hp
  untouched := by
    intro j hj
    rw [List.map_cons, List.mem_cons, not_or] at hj
    rw [Array.getElem?_set, if_neg (fun heq => hj.1 (Fin.ext heq.symm))]
    exact h.untouched j hj.2
  written := h.written.cons i.val

/-- One more column that is its index's alone. -/
theorem Shows.cons_alone (h : Shows keeps fillers written columns) (hn : 0 < n) {i : Fin n}
    (hi : i ∉ columns.map Prod.fst) (share : ω) (hk : i.val < keeps.size) :
    Shows (keeps.set i.val share hk) fillers (i.val :: written)
      ((i, ⟨share, ⟨0, hn⟩⟩) :: columns) := by
  have hf : i.val < fillers.size := h.size_fillers.symm ▸ i.isLt
  have hzero : fillers[i.val] = 0 := by
    have := h.untouched i hi
    rwa [Array.getElem?_eq_getElem hf, Option.some.injEq] at this
  have hsame : fillers.set i.val 0 hf = fillers := by
    rw [← hzero, Array.set_getElem_self]
  -- Nothing is written as filler, which comes to the same as writing what is there.
  have hcons := h.cons hi share ⟨0, hn⟩ hk hf
  dsimp only at hcons
  rwa [hsame] at hcons

/-! ### Filling a table -/

variable [Weight ω]

/-- Takes an index to the others with too little or to those with enough. -/
def sortStep (scaled : Array ω) (sorted : List Nat × List Nat) (i : Nat) :
    Option (List Nat × List Nat) := do
  let weight ← scaled[i]?
  return if Weight.lt weight one then (i :: sorted.1, sorted.2) else (sorted.1, i :: sorted.2)

/-- No share is written. -/
def Filling.blank (scaled : Array ω) (sorted : List Nat × List Nat) : Filling ω where
  scaled := scaled
  keeps := Array.replicate scaled.size (Weight.ofNat 0)
  fillers := Array.replicate scaled.size 0
  small := sorted.1
  large := sorted.2
  written := []

/-- Before the first pair, the indexes are sorted, from the last one down. -/
def start? (scaled : Array ω) : Option (Filling ω) := do
  let sorted ← (List.range scaled.size).reverse.foldlM (sortStep scaled) ([], [])
  return .blank scaled sorted

/-- One turn of the pairing loop. -/
def pairTurn (f : Filling ω) : Option (Turn (Filling ω)) :=
  match f.small, f.large with
  | less :: small, more :: large => do
    let lent ← f.scaled[less]?
    let f ← f.keep? less lent
    let fillers ← put? f.fillers less more
    let had ← f.scaled[more]?
    let rest := Weight.sub (Weight.add had lent) one
    let scaled ← put? f.scaled more rest
    if Weight.lt rest one then
      return .next { f with scaled, fillers, small := more :: small, large }
    else return .next { f with scaled, fillers, small, large := more :: large }
  | _, _ => return .over

/-- The indexes that are left over keep their columns to themselves. -/
def finish? (f : Filling ω) : Option (Filling ω) :=
  (f.large.reverse ++ f.small.reverse).foldlM (fun f i => f.keep? i one) f

/-- In place, the table for some scaled weights is filled, with a number of turns of the pairing loop. -/
def Fills (scaled : Array ω) (turns : Nat) (table : Filling ω) : Prop :=
  ∃ first last, start? scaled = some first ∧ Loop pairTurn turns first last ∧ finish? last = some table

/-! ### The table is filled -/

/-- Sorting the indexes in place keeps their order on both sides. -/
theorem foldlM_sortStep (scaled : Vector ω n) (is : List (Fin n)) :
    (is.map Fin.val).reverse.foldlM (sortStep scaled.toArray) ([], []) =
      some ((is.filter fun i => Weight.lt (scaled.get i) one).map Fin.val,
        (is.filter fun i => !Weight.lt (scaled.get i) one).map Fin.val) := by
  induction is with
  | nil => rfl
  | cons i is ih =>
    rw [List.map_cons, List.reverse_cons, List.foldlM_append, ih, Option.bind_eq_bind,
      Option.bind_some, List.foldlM_cons, sortStep, toArray_get? scaled i.isLt]
    cases hless : Weight.lt (scaled.get i) one <;>
      simp only [Option.bind_eq_bind, Option.bind_some, hless, List.filter_cons, Bool.not_true,
        Bool.not_false, if_true, if_false, Bool.false_eq_true, List.map_cons] <;> rfl

/-- In place, the indexes that are left over get their columns. -/
theorem exists_foldlM_keep? (hn : 0 < n) (is : List (Fin n)) {f : Filling ω}
    {columns : List (Fin n × Column ω n)} (h : Shows f.keeps f.fillers f.written columns)
    (hnodup : (columns.map Prod.fst ++ is).Nodup) :
    ∃ table, (is.map Fin.val).foldlM (fun f i => f.keep? i one) f = some table ∧
      Shows table.keeps table.fillers table.written
        ((is.map fun i => (i, ⟨one, ⟨0, hn⟩⟩)) ++ columns) := by
  induction is generalizing f columns with
  | nil => exact ⟨f, rfl, h⟩
  | cons i is ih =>
    have hk : i.val < f.keeps.size := h.size_keeps.symm ▸ i.isLt
    have hi : i ∉ columns.map Prod.fst := fun hmem =>
      List.disjoint_of_nodup_append hnodup hmem List.mem_cons_self
    have hmoved : (i :: (columns.map Prod.fst ++ is)).Nodup :=
      List.perm_middle.nodup_iff.1 hnodup
    let f' : Filling ω := { f with keeps := f.keeps.set i.val one hk, written := i.val :: f.written }
    obtain ⟨table, htable, hshows⟩ := ih (f := f') (h.cons_alone hn hi one hk) hmoved
    refine ⟨table, ?_, hshows.perm List.perm_middle⟩
    rw [List.map_cons, List.foldlM_cons, Filling.keep?_of_lt hk]
    exact htable

/-- A filling in place is at the point where these columns are handed out and these indexes are left. -/
structure Mirrors (f : Filling ω) (scaled : Vector ω n) (columns : List (Fin n × Column ω n))
    (small large : List (Fin n)) : Prop where
  scaled : f.scaled = scaled.toArray
  small : f.small = small.map Fin.val
  large : f.large = large.map Fin.val
  shows : Shows f.keeps f.fillers f.written columns

/-- A turn of the pairing loop hands out one column. -/
theorem Mirrors.turn {f : Filling ω} {scaled : Vector ω n} {columns : List (Fin n × Column ω n)}
    {less more : Fin n} {small large : List (Fin n)}
    (h : Mirrors f scaled columns (less :: small) (more :: large))
    (hless : less ∉ columns.map Prod.fst) :
    let lent := scaled.get less
    let rest := Weight.sub (Weight.add (scaled.get more) lent) one
    ∃ f', pairTurn f = some (.next f') ∧
      Mirrors f' (scaled.set more.val rest more.isLt) ((less, ⟨lent, more⟩) :: columns)
        (if Weight.lt rest one then more :: small else small)
        (if Weight.lt rest one then large else more :: large) := by
  intro lent rest
  obtain ⟨hscaled, hsmall, hlarge, hshows⟩ := h
  obtain ⟨scaledArray, keeps, fillers, smallList, largeList, written⟩ := f
  dsimp only at hscaled hsmall hlarge hshows
  subst hscaled hsmall hlarge
  have hk : less.val < keeps.size := hshows.size_keeps.symm ▸ less.isLt
  have hf : less.val < fillers.size := hshows.size_fillers.symm ▸ less.isLt
  refine ⟨⟨(scaled.set more.val rest more.isLt).toArray, keeps.set less.val lent hk,
      fillers.set less.val more.val hf,
      (if Weight.lt rest one then more :: small else small).map Fin.val,
      (if Weight.lt rest one then large else more :: large).map Fin.val, less.val :: written⟩,
    ?_, ⟨rfl, rfl, rfl, hshows.cons hless lent more hk hf⟩⟩
  simp only [pairTurn, Filling.keep?, List.map_cons, toArray_get? scaled less.isLt,
    toArray_get? scaled more.isLt, put?_toArray scaled more.isLt, put?_of_lt hk, put?_of_lt hf,
    Option.bind_eq_bind, Option.bind_some, Option.pure_def, lent, rest]
  cases Weight.lt (Weight.sub (Weight.add (scaled.get more) (scaled.get less)) one) one <;> rfl

/-- From a filling, the pairing loop ends within `most` turns, and the table that comes of it shows some
columns. -/
def Ends (f : Filling ω) (most : Nat) (columns : List (Fin n × Column ω n)) : Prop :=
  ∃ turns last table, turns ≤ most ∧ Loop pairTurn turns f last ∧ finish? last = some table ∧
    Shows table.keeps table.fillers table.written columns

theorem Ends.next {f f' : Filling ω} {fewer most : Nat} {columns : List (Fin n × Column ω n)}
    (h : Ends f' fewer columns) (hturn : pairTurn f = some (.next f')) (hmost : most = fewer + 1) :
    Ends f most columns := by
  subst hmost
  obtain ⟨turns, last, table, hle, hloop, hfinish, hshows⟩ := h
  exact ⟨turns + 1, last, table, Nat.succ_le_succ hle, .next hturn hloop, hfinish, hshows⟩

/-- In place, the columns are those that `pair` hands out. Each turn leaves an index less, and the loop
ends with one left, if not before. -/
theorem ends_pair (hn : 0 < n) (scaled : Vector ω n) (columns : List (Fin n × Column ω n))
    (small large : List (Fin n)) {f : Filling ω} (h : Mirrors f scaled columns small large)
    (hnodup : (columns.map Prod.fst ++ (small ++ large)).Nodup) :
    Ends f (small.length + large.length - 1) (pair hn scaled columns small large) := by
  fun_induction pair hn scaled columns small large generalizing f with
  | case1 scaled columns less small more large lent handed rest lowered hless =>
    rename_i ih
    have hi : less ∉ columns.map Prod.fst := fun hmem =>
      List.disjoint_of_nodup_append hnodup hmem List.mem_cons_self
    obtain ⟨f', hturn, hmirrors⟩ := h.turn hi
    rw [if_pos hless, if_pos hless] at hmirrors
    have hends := ih hmirrors ((perm_of_lowered less more _ small large).nodup_iff.2 hnodup)
    refine hends.next hturn ?_
    simp only [List.length_cons]
    omega
  | case2 scaled columns less small more large lent handed rest lowered hless =>
    rename_i ih
    have hi : less ∉ columns.map Prod.fst := fun hmem =>
      List.disjoint_of_nodup_append hnodup hmem List.mem_cons_self
    obtain ⟨f', hturn, hmirrors⟩ := h.turn hi
    rw [if_neg hless, if_neg hless] at hmirrors
    have hends := ih hmirrors ((perm_of_kept less more _ small large).nodup_iff.2 hnodup)
    refine hends.next hturn ?_
    simp only [List.length_cons]
    omega
  | case3 scaled columns small large hdone =>
    have hturn : pairTurn f = some .over := by
      rw [pairTurn, h.small, h.large]
      cases small with
      | nil => rfl
      | cons less small =>
        cases large with
        | nil => rfl
        | cons more large => exact (hdone less small more large rfl rfl).elim
    have hleft : f.large.reverse ++ f.small.reverse =
        (large.reverse ++ small.reverse).map Fin.val := by
      rw [h.small, h.large, List.map_append, List.map_reverse, List.map_reverse]
    have hperm : (large.reverse ++ small.reverse).Perm (large ++ small) :=
      (List.reverse_perm large).append (List.reverse_perm small)
    have hnodup' : (columns.map Prod.fst ++ (large.reverse ++ small.reverse)).Nodup :=
      ((hperm.trans List.perm_append_comm).append_left _).nodup_iff.2 hnodup
    -- The stacks are emptied from the bottom, which makes another order of the same columns.
    obtain ⟨table, htable, hshows⟩ := exists_foldlM_keep? hn _ h.shows hnodup'
    refine ⟨0, f, table, Nat.zero_le _, .over hturn, ?_, hshows.perm ?_⟩
    · rw [finish?, hleft]
      exact htable
    · rw [List.foldl_flip_cons_eq_append]
      exact ((hperm.map _).trans (List.reverse_perm _).symm).append_right columns

/-- In place, the pairing starts with the indexes sorted by their weights. -/
theorem exists_start? (scaled : Vector ω n) :
    ∃ first, start? scaled.toArray = some first ∧
      Mirrors first scaled [] ((List.finRange n).filter fun i => Weight.lt (scaled.get i) one)
        ((List.finRange n).filter fun i => !Weight.lt (scaled.get i) one) := by
  have hrange : List.range scaled.toArray.size = (List.finRange n).map Fin.val := by
    rw [Vector.size_toArray, List.map_coe_finRange_eq_range]
  refine ⟨.blank scaled.toArray (_, _), ?_, rfl, rfl, rfl, ?_⟩
  · rw [start?, hrange, foldlM_sortStep]
    rfl
  · rw [Filling.blank, Vector.size_toArray]
    exact shows_nil n (Weight.ofNat 0)

/-- In place, a table is filled with the columns of the weights, and the pairing loop takes a turn less
than there are indexes, or fewer. -/
theorem exists_fills (hn : 0 < n) (scaled : Vector ω n) :
    ∃ turns table, Fills scaled.toArray turns table ∧ turns ≤ n - 1 ∧
      Shows table.keeps table.fillers table.written (columnsOf hn scaled) := by
  obtain ⟨first, hstart, hmirrors⟩ := exists_start? scaled
  have hperm := List.filter_append_perm (fun i => Weight.lt (scaled.get i) one) (List.finRange n)
  obtain ⟨turns, last, table, hle, hloop, hfinish, hshows⟩ :=
    ends_pair hn scaled [] _ _ hmirrors (hperm.nodup_iff.2 (List.nodup_finRange n))
  have hlength := hperm.length_eq
  rw [List.length_append, List.length_finRange] at hlength
  rw [hlength] at hle
  exact ⟨turns, table, ⟨first, last, hstart, hloop, hfinish⟩, hle, hshows⟩

end UrReplay.AliasTable
