import Mathlib
import UrReplay.Random.AliasTable
/-!
# UrReplay.Proofs.Random.AliasTable

The shape of the table of columns, which does not depend on the numbers. Handing out a column takes an
index from the two lists for good, and moves another one from one list to the other or back. So the
indexes with a column and those in the lists are together always the same (`map_fst_pair_perm`), each
index gets exactly one column (`map_fst_columnsOf_perm`), and the table holds just these columns
(`get_columns_ofWeights`).
-/

namespace UrReplay.AliasTable

variable {ω : Type} {n : Nat}

/-! ### Putting columns into a table -/

theorem get_foldl_set_of_not_mem {columns : List (Fin n × Column ω n)} {i : Fin n}
    (hi : i ∉ columns.map Prod.fst) (table : Vector (Column ω n) n) :
    (columns.foldl (fun columns p => columns.set p.1.val p.2 p.1.isLt) table).get i = table.get i := by
  induction columns generalizing table with
  | nil => rfl
  | cons p columns ih =>
    rw [List.map_cons, List.mem_cons, not_or] at hi
    rw [List.foldl_cons, ih hi.2]
    exact Vector.getElem_set_ne _ _ (fun h => hi.1 (Fin.ext h.symm))

/-- Columns for distinct indexes are found where they were put. -/
theorem get_foldl_set {columns : List (Fin n × Column ω n)} (hnodup : (columns.map Prod.fst).Nodup)
    {p : Fin n × Column ω n} (hp : p ∈ columns) (table : Vector (Column ω n) n) :
    (columns.foldl (fun columns p => columns.set p.1.val p.2 p.1.isLt) table).get p.1 = p.2 := by
  induction columns generalizing table with
  | nil => exact absurd hp List.not_mem_nil
  | cons q columns ih =>
    rw [List.map_cons, List.nodup_cons] at hnodup
    rw [List.foldl_cons]
    rcases List.mem_cons.1 hp with rfl | hp
    · rw [get_foldl_set_of_not_mem hnodup.1]
      exact Vector.getElem_set_self _
    · exact ih hnodup.2 hp _

/-! ### The columns -/

/-- An index that gets its column leaves the lists, and another one moves to the front of the first. -/
theorem perm_of_lowered (less more : Fin n) (done small large : List (Fin n)) :
    (less :: done ++ (more :: small ++ large)).Perm (done ++ (less :: small ++ more :: large)) := by
  refine List.perm_middle.symm.trans (List.Perm.append_left done ?_)
  exact List.Perm.cons less List.perm_middle.symm

/-- An index that gets its column leaves the lists, and another one stays in the second. -/
theorem perm_of_kept (less more : Fin n) (done small large : List (Fin n)) :
    (less :: done ++ (small ++ more :: large)).Perm (done ++ (less :: small ++ more :: large)) :=
  List.perm_middle.symm

variable [Weight ω]

/-- Whatever the numbers are, each index of the two lists gets one column. -/
theorem map_fst_pair_perm (hn : 0 < n) (scaled : Vector ω n) (columns : List (Fin n × Column ω n))
    (small large : List (Fin n)) :
    ((pair hn scaled columns small large).map Prod.fst).Perm
      (columns.map Prod.fst ++ (small ++ large)) := by
  fun_induction pair hn scaled columns small large with
  | case1 scaled columns less small more large lent handed rest scaled' hless ih =>
    exact ih.trans (perm_of_lowered less more _ small large)
  | case2 scaled columns less small more large lent handed rest scaled' hless ih =>
    exact ih.trans (perm_of_kept less more _ small large)
  | case3 scaled columns small large hdone =>
    rw [List.foldl_flip_cons_eq_append, List.map_append, List.map_reverse, List.map_map]
    refine List.perm_append_comm.trans (List.Perm.append_left _ ?_)
    refine (List.reverse_perm _).trans ?_
    rw [show (Prod.fst ∘ fun i : Fin n => (i, (⟨one, ⟨0, hn⟩⟩ : Column ω n))) = id from rfl,
      List.map_id]
    exact List.perm_append_comm

/-- Each index gets one column. -/
theorem map_fst_columnsOf_perm (hn : 0 < n) (scaled : Vector ω n) :
    ((columnsOf hn scaled).map Prod.fst).Perm (List.finRange n) :=
  (map_fst_pair_perm hn scaled [] _ _).trans (List.filter_append_perm _ _)

/-- The table holds the columns that are handed out. -/
theorem get_columns_ofWeights (hn : 0 < n) (weights : Vector ω n) {p : Fin n × Column ω n}
    (hp : p ∈ columnsOf hn (scale weights)) : (ofWeights hn weights).columns.get p.1 = p.2 :=
  get_foldl_set ((map_fst_columnsOf_perm hn _).nodup_iff.2 (List.nodup_finRange n)) hp _

end UrReplay.AliasTable
