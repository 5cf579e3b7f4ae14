import UrReplay.Proofs.Random.AliasTable.InPlace
import UrReplay.Random.Sampling
/-!
# UrReplay.Proofs.Random.AliasTable.Choice

Choosing from a table that was filled in place. Nothing is assumed of the arithmetic, so what is said
here of the table, of a choice and of a degree holds however numbers are rounded and compared
(`fills_wellFormed`).
-/

namespace UrReplay.AliasTable

variable {ω : Type} {n : Nat} [Weight ω]

/-- The choice of two draws in a table in place. -/
def choose? (keeps : Array ω) (fillers : Array Nat) (first second : ω) : Option Nat := do
  let last ← less? keeps.size 1
  let i := min (Weight.floor (Weight.mul (Weight.ofNat keeps.size) first)) last
  let keep ← keeps[i]?
  if Weight.lt second keep then return i else fillers[i]?

/-- Arrays that show the columns of a table choose as the table does. -/
theorem choose?_eq (hn : 0 < n) {table : AliasTable ω n} {keeps : Array ω} {fillers : Array Nat}
    (hsize : keeps.size = n)
    (hcolumn : ∀ i : Fin n, keeps[i.val]? = some (table.columns.get i).keep ∧
      fillers[i.val]? = some (table.columns.get i).filler.val) (first second : ω) :
    choose? keeps fillers first second = some (table.choose hn first second).val := by
  have hi : min (Weight.floor (Weight.mul (Weight.ofNat n) first)) (n - 1) < n := by omega
  obtain ⟨hkeep, hfiller⟩ := hcolumn ⟨_, hi⟩
  simp only [choose?, choose, hsize, less?_of_le hn, Option.bind_eq_bind, Option.bind_some, hkeep,
    hfiller, Option.pure_def]
  split <;> rfl

/-- The weights of the degrees from one to `n`. -/
def degreeWeights (n : Nat) : Vector Float n := Vector.ofFn fun i => 1.0 / Float.ofNat (i + 1)

/-- Every table can be filled in place: each share is written once, and the arrays hold the columns. -/
theorem exists_table (hn : 0 < n) (weights : Vector ω n) :
    ∃ turns table, Fills (scale weights).toArray turns table ∧ turns ≤ n - 1 ∧
      table.written.Perm (List.range n) ∧ table.keeps.size = n ∧ table.fillers.size = n ∧
      ∀ i : Fin n, table.keeps[i.val]? = some ((ofWeights hn weights).columns.get i).keep ∧
        table.fillers[i.val]? = some ((ofWeights hn weights).columns.get i).filler.val := by
  obtain ⟨turns, table, hfills, hle, hshows⟩ := exists_fills hn (scale weights)
  have hindexes := map_fst_columnsOf_perm hn (scale weights)
  refine ⟨turns, table, hfills, hle, ?_, hshows.size_keeps, hshows.size_fillers, ?_⟩
  · have hvalues := hindexes.map Fin.val
    rw [List.map_map, List.map_coe_finRange_eq_range] at hvalues
    exact hshows.written.trans hvalues
  · intro i
    obtain ⟨p, hp, rfl⟩ := List.mem_map.1 (hindexes.mem_iff.2 (List.mem_finRange i))
    rw [get_columns_ofWeights hn weights hp]
    exact hshows.column p hp

/-- A table in place is well formed whatever the arithmetic does. The pairing loop ends after at most
`n - 1` turns, the share of each index is written once, each filler is an index, and the arrays hold the
columns of the table. So two draws, whatever they are, choose an index, the one that they choose from the
table, and a degree is between one and the number of fragments. -/
theorem fills_wellFormed (hn : 0 < n) (weights : Vector ω n) :
    (∃ turns table, Fills (scale weights).toArray turns table ∧ turns ≤ n - 1 ∧
      table.written.Perm (List.range n) ∧ table.keeps.size = n ∧ table.fillers.size = n ∧
      (∀ filler ∈ table.fillers, filler < n) ∧
      (∀ i : Fin n, table.keeps[i.val]? = some ((ofWeights hn weights).columns.get i).keep ∧
        table.fillers[i.val]? = some ((ofWeights hn weights).columns.get i).filler.val) ∧
      ∀ first second, ∃ i < n, choose? table.keeps table.fillers first second = some i ∧
        i = ((ofWeights hn weights).choose hn first second).val) ∧
    ∀ g : Xoshiro, ∃ turns table i, Fills (scale (degreeWeights n)).toArray turns table ∧
      choose? table.keeps table.fillers g.nextUnit.1 g.nextUnit.2.nextUnit.1 = some i ∧
      (g.degree n hn).1 = i + 1 ∧ 1 ≤ (g.degree n hn).1 ∧ (g.degree n hn).1 ≤ n := by
  constructor
  · obtain ⟨turns, table, hfills, hle, hwritten, hkeeps, hfillers, hcolumn⟩ :=
      exists_table hn weights
    refine ⟨turns, table, hfills, hle, hwritten, hkeeps, hfillers, ?_, hcolumn, ?_⟩
    · intro filler hfiller
      obtain ⟨i, hi, rfl⟩ := Array.getElem_of_mem hfiller
      obtain ⟨-, hget⟩ := hcolumn ⟨i, hfillers ▸ hi⟩
      rw [Array.getElem?_eq_getElem hi, Option.some.injEq] at hget
      rw [hget]
      exact Fin.isLt _
    · intro first second
      exact ⟨_, Fin.isLt _, choose?_eq hn hkeeps hcolumn first second, rfl⟩
  · intro g
    obtain ⟨turns, table, hfills, -, -, hkeeps, -, hcolumn⟩ := exists_table hn (degreeWeights n)
    exact ⟨turns, table, _, hfills, choose?_eq hn hkeeps hcolumn _ _, rfl,
      Nat.succ_le_succ (Nat.zero_le _), Fin.isLt _⟩

/-- Whole numbers as weights: fractions are dropped, and nothing is below zero. -/
instance : Weight Nat where
  ofNat := id
  add := (· + ·)
  sub := (· - ·)
  mul := (· * ·)
  div := (· / ·)
  lt a b := decide (a < b)
  floor := id

/-- With whole numbers, lending leaves each lender with too little, so the pairing takes the two turns that
three indexes allow; a draw of one, which is out of range, chooses the last index. -/
theorem fills_wellFormed_whole_numbers :
    0 < 3 ∧ ∃ turns table, Fills (scale #v[1, 5, 3]).toArray turns table ∧ turns ≤ 2 ∧
      table.written.Perm [0, 1, 2] ∧ (∀ filler ∈ table.fillers, filler < 3) ∧
      choose? table.keeps table.fillers 1 0 = some 2 := by
  obtain ⟨⟨turns, table, hfills, hle, hwritten, -, -, hfiller, -, hchoose⟩, -⟩ :=
    fills_wellFormed (by decide) (#v[1, 5, 3] : Vector Nat 3)
  obtain ⟨i, -, hchosen, hi⟩ := hchoose 1 0
  have hlast : ((ofWeights (by decide) (#v[1, 5, 3] : Vector Nat 3)).choose (by decide) 1 0).val = 2 := by
    decide +kernel
  rw [hi, hlast] at hchosen
  exact ⟨by decide, turns, table, hfills, hle, hwritten, hfiller, hchosen⟩

end UrReplay.AliasTable
