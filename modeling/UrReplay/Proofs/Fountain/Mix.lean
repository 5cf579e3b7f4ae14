import UrReplay.Fountain.Mix
import UrReplay.Proofs.Fountain.IndexSet
import UrReplay.Proofs.Xor
/-!
# UrReplay.Proofs.Fountain.Mix

What reductions and the list of held mixes do to the fragments that are mixed.

* `Mix.support` is the finite set of the fragments of a mix. A reduction either changes nothing or
  takes a strict subset out (`reduceBy_of_ssubset`, `reduceBy_of_not_ssubset`), so it never empties a
  mix (`support_reduceBy_nonempty`).
* A predicate that reductions keep is `ReductionClosed`. Facts about all data a decoder ever makes
  come from such predicates; `Encodes` is the main one: the data of a mix is the sum of a table of
  fragments over its support.
* Putting mixes into a list keeps one mix for each support (`exists_mem_collect`, `nodup_collect`).
-/

namespace UrReplay.Fountain.Mix

/-- The indexes of the fragments that are mixed, as a finite set. -/
def support (m : Mix) : Finset Nat := m.indexes.toFinset

theorem card_support (m : Mix) : m.support.card = m.indexes.card := IndexSet.card_toFinset _

theorem support_inj {a b : Mix} : a.support = b.support ↔ a.indexes = b.indexes :=
  IndexSet.toFinset_inj

@[simp] theorem support_ofFragment (i : Nat) (data : Bytes) : (ofFragment i data).support = {i} :=
  IndexSet.toFinset_singleton i

/-! ### Mixes of one fragment -/

theorem single?_eq_some_iff {m : Mix} {i : Nat} :
    m.single? = some i ↔ m = ofFragment i m.data := by
  obtain ⟨⟨indexes, ascending⟩, data⟩ := m
  unfold single? ofFragment IndexSet.singleton
  constructor
  · intro h
    split at h
    · simp_all
    · exact absurd h (by simp)
  · intro h
    obtain rfl : indexes = [i] := by simpa using h
    rfl

/-- A mix is one fragment exactly if its support has one member. -/
theorem isSingle_iff {m : Mix} : m.isSingle = true ↔ m.support.card = 1 := by
  rw [isSingle, Option.isSome_iff_exists, card_support, IndexSet.card_eq_one_iff]
  constructor
  · intro h
    obtain ⟨i, hi⟩ := h
    exact ⟨i, congrArg indexes (single?_eq_some_iff.1 hi)⟩
  · intro h
    obtain ⟨i, hi⟩ := h
    refine ⟨i, single?_eq_some_iff.2 ?_⟩
    rw [ofFragment, ← hi]

theorem isSingle_eq_false_iff {m : Mix} : m.isSingle = false ↔ m.support.card ≠ 1 := by
  rw [Ne, ← isSingle_iff, Bool.not_eq_true]

theorem single?_eq_none_iff {m : Mix} : m.single? = none ↔ m.isSingle = false := by
  rw [isSingle, Option.isSome_eq_false_iff, Option.isNone_iff_eq_none]

/-! ### Reduction -/

/-- The check before a reduction decides strict inclusion. -/
theorem reducible_iff {m other : Mix} :
    (other.indexes.card < m.indexes.card && other.indexes.isSubset m.indexes) = true ↔
      other.support ⊂ m.support := by
  rw [Bool.and_eq_true, decide_eq_true_eq, IndexSet.isSubset_iff, ← card_support, ← card_support]
  constructor
  · intro h
    obtain ⟨hcard, hsub⟩ := h
    exact Finset.ssubset_iff_subset_ne.2 ⟨hsub, fun h => by rw [h] at hcard; omega⟩
  · intro h
    exact ⟨Finset.card_lt_card h, h.1⟩

theorem reduceBy_of_ssubset {m other : Mix} (h : other.support ⊂ m.support) :
    m.reduceBy other = ⟨m.indexes.sdiff other.indexes, m.data.xorInto other.data⟩ := by
  rw [reduceBy, if_pos (reducible_iff.2 h)]

theorem reduceBy_of_not_ssubset {m other : Mix} (h : ¬other.support ⊂ m.support) :
    m.reduceBy other = m := by
  rw [reduceBy, if_neg (fun hred => h (reducible_iff.1 hred))]

theorem support_reduceBy_of_ssubset {m other : Mix} (h : other.support ⊂ m.support) :
    (m.reduceBy other).support = m.support \ other.support := by
  rw [reduceBy_of_ssubset h]
  exact IndexSet.toFinset_sdiff _ _

theorem support_reduceBy_subset (m other : Mix) : (m.reduceBy other).support ⊆ m.support := by
  by_cases h : other.support ⊂ m.support
  · rw [support_reduceBy_of_ssubset h]
    exact Finset.sdiff_subset
  · rw [reduceBy_of_not_ssubset h]

/-- A reduction leaves at least one fragment. -/
theorem support_reduceBy_nonempty {m : Mix} (hm : m.support.Nonempty) (other : Mix) :
    (m.reduceBy other).support.Nonempty := by
  by_cases h : other.support ⊂ m.support
  · rw [support_reduceBy_of_ssubset h]
    exact Finset.sdiff_nonempty.2 h.2
  · rwa [reduceBy_of_not_ssubset h]

/-- A mix of two or more fragments loses a fragment that is taken out of it. -/
theorem support_reduceBy_ofFragment {m : Mix} (hm : m.support.card ≠ 1) (i : Nat) (data : Bytes) :
    (m.reduceBy (ofFragment i data)).support = m.support \ {i} := by
  by_cases hi : i ∈ m.support
  · have hlt : (ofFragment i data).support ⊂ m.support := by
      refine Finset.ssubset_iff_subset_ne.2 ⟨?_, fun h => hm ?_⟩
      · simpa using hi
      · rw [← h, support_ofFragment, Finset.card_singleton]
    rw [support_reduceBy_of_ssubset hlt, support_ofFragment]
  · have hnot : ¬(ofFragment i data).support ⊂ m.support := fun h => hi (h.1 (by simp))
    rw [reduceBy_of_not_ssubset hnot, Finset.sdiff_eq_self_of_disjoint (Finset.disjoint_singleton_right.2 hi)]

theorem support_foldl_reduceBy_subset (others : List Mix) (m : Mix) :
    (others.foldl reduceBy m).support ⊆ m.support := by
  induction others generalizing m with
  | nil => exact Finset.Subset.refl _
  | cons o others ih => exact (ih (m.reduceBy o)).trans (support_reduceBy_subset m o)

/-- A single fragment loses nothing. -/
theorem support_reduceBy_of_isSingle {m : Mix} (h : m.isSingle = true) (other : Mix) :
    (m.reduceBy other).support = m.support := by
  have hcard := isSingle_iff.1 h
  have hpos := (support_reduceBy_nonempty (Finset.card_pos.1 (hcard ▸ Nat.one_pos)) other).card_pos
  exact Finset.eq_of_subset_of_card_le (support_reduceBy_subset m other) (hcard.trans_le hpos)

theorem support_foldl_reduceBy_of_isSingle {m : Mix} (h : m.isSingle = true)
    (others : List Mix) : (others.foldl reduceBy m).support = m.support := by
  induction others generalizing m with
  | nil => rfl
  | cons o others ih =>
    have heq := support_reduceBy_of_isSingle h o
    have hsingle : (m.reduceBy o).isSingle = true := by rwa [isSingle_iff, heq, ← isSingle_iff]
    rw [List.foldl_cons, ih hsingle, heq]

theorem support_foldl_reduceBy_nonempty {m : Mix} (hm : m.support.Nonempty) (others : List Mix) :
    (others.foldl reduceBy m).support.Nonempty :=
  List.foldlRecOn (motive := fun x => x.support.Nonempty) others reduceBy hm
    fun _ hx o _ => support_reduceBy_nonempty hx o

/-- Taking something out leaves a mix as it is only if it cannot be taken out. -/
theorem reduceBy_eq_self_iff {m other : Mix} (hother : other.support.Nonempty) :
    m.reduceBy other = m ↔ ¬other.support ⊂ m.support := by
  refine ⟨fun hself hlt => ?_, reduceBy_of_not_ssubset⟩
  have hsupport := support_reduceBy_of_ssubset hlt
  rw [hself, eq_comm, Finset.sdiff_eq_self_iff_disjoint] at hsupport
  obtain ⟨i, hi⟩ := hother
  exact Finset.disjoint_right.1 hsupport hi (hlt.1 hi)

/-! ### Predicates that reductions keep -/

/-- Whether the predicate holds of whatever reductions make of mixes of which it holds. -/
def ReductionClosed (P : Mix → Prop) : Prop :=
  ∀ m other, P m → P other → other.support ⊂ m.support → P (m.reduceBy other)

theorem ReductionClosed.reduceBy {P : Mix → Prop} (hP : ReductionClosed P) {m other : Mix}
    (hm : P m) (hother : P other) : P (m.reduceBy other) := by
  by_cases h : other.support ⊂ m.support
  · exact hP m other hm hother h
  · rwa [reduceBy_of_not_ssubset h]

theorem ReductionClosed.foldl {P : Mix → Prop} (hP : ReductionClosed P) {m : Mix} (hm : P m)
    {others : List Mix} (hothers : ∀ o ∈ others, P o) : P (others.foldl Mix.reduceBy m) := by
  induction others generalizing m with
  | nil => exact hm
  | cons o others ih =>
    obtain ⟨ho, hrest⟩ := List.forall_mem_cons.1 hothers
    exact ih (hP.reduceBy hm ho) hrest

/-- A mix of fragments below `seqLen`, with data of length `len`. -/
structure Within (seqLen len : Nat) (m : Mix) : Prop where
  lt : ∀ i ∈ m.support, i < seqLen
  length : m.data.length = len

theorem reductionClosed_within (seqLen len : Nat) : ReductionClosed (Within seqLen len) := by
  intro m other hm _ h
  refine ⟨?_, ?_⟩
  · intro i hi
    exact hm.lt i (support_reduceBy_subset m other hi)
  · rw [reduceBy_of_ssubset h, Bytes.length_xorInto, hm.length]

theorem reductionClosed_nonempty : ReductionClosed fun m => m.support.Nonempty :=
  fun _ other hm _ _ => support_reduceBy_nonempty hm other

/-! ### Sums over a table of fragments -/

/-- The exclusive or of the fragments of a table that a set of indexes picks. -/
def sumOver (table : Nat → Bytes) (len : Nat) (s : IndexSet) : Bytes :=
  Bytes.xorAll len (s.toList.map table)

/-- The mix is what the table says: its data is the sum of the fragments of its support, which all
have length `len`. -/
structure Encodes (table : Nat → Bytes) (len : Nat) (m : Mix) : Prop where
  length : ∀ i ∈ m.support, (table i).length = len
  data : m.data = sumOver table len m.indexes

theorem length_sumOver {table : Nat → Bytes} {len : Nat} {s : IndexSet}
    (h : ∀ i ∈ s.toFinset, (table i).length = len) : (sumOver table len s).length = len := by
  refine Bytes.length_xorAll ?_
  intro a ha
  obtain ⟨i, hi, rfl⟩ := List.mem_map.1 ha
  exact h i (IndexSet.mem_toFinset.2 hi)

/-- The sum over a set is that over a subset and that over the rest. -/
theorem sumOver_eq_xor_sdiff {table : Nat → Bytes} {len : Nat} {a b : IndexSet}
    (hab : b.toFinset ⊆ a.toFinset) (h : ∀ i ∈ a.toFinset, (table i).length = len) :
    sumOver table len a = (sumOver table len (a.sdiff b)).xor (sumOver table len b) := by
  have hperm : a.toList.Perm ((a.sdiff b).toList ++ b.toList) := by
    apply List.perm_of_nodup_nodup_toFinset_eq a.nodup_toList
    · refine List.nodup_append'.2 ⟨IndexSet.nodup_toList _, b.nodup_toList, ?_⟩
      intro i hi hib
      exact ((IndexSet.mem_difference a.ascending b.ascending).1 hi).2 hib
    · rw [List.toFinset_append]
      change a.toFinset = (a.sdiff b).toFinset ∪ b.toFinset
      rw [IndexSet.toFinset_sdiff, Finset.sdiff_union_of_subset hab]
  rw [sumOver, Bytes.xorAll_perm (hperm.map table), List.map_append, Bytes.xorAll_append]
  · rfl
  · intro f hf
    obtain ⟨i, hi, rfl⟩ := List.mem_map.1 hf
    exact h i (hab (IndexSet.mem_toFinset.2 hi))

/-- What two sums of the table have in common cancels, so a reduction gives a sum of the table. -/
theorem reductionClosed_encodes (table : Nat → Bytes) (len : Nat) :
    ReductionClosed (Encodes table len) := by
  intro m other hm hother h
  refine ⟨fun i hi => hm.length i (support_reduceBy_subset m other hi), ?_⟩
  have hlength {s : IndexSet} (hs : s.toFinset ⊆ m.support) : (sumOver table len s).length = len :=
    length_sumOver fun i hi => hm.length i (hs hi)
  have hrest : (m.indexes.sdiff other.indexes).toFinset ⊆ m.support := by
    rw [IndexSet.toFinset_sdiff]
    exact Finset.sdiff_subset
  have hsame : m.data.length = other.data.length := by
    rw [hm.data, hother.data, hlength Finset.Subset.rfl, hlength h.1]
  rw [reduceBy_of_ssubset h, Bytes.xorInto_of_length_le hsame.le, hm.data, hother.data,
    sumOver_eq_xor_sdiff h.1 hm.length, Bytes.xor_xor_cancel]
  rw [hlength hrest, hlength h.1]

theorem encodes_ofFragment {table : Nat → Bytes} {len i : Nat} {data : Bytes}
    (h : (ofFragment i data).Encodes table len) : data = table i := by
  have hi : (table i).length = len := h.length i (by simp)
  have hdata : data = Bytes.xorAll len [table i] := h.data
  rw [hdata, Bytes.xorAll_singleton hi]

/-! ### Lists with one mix for each support -/

theorem mem_of_mem_upsert {x m : Mix} {held : List Mix} (h : x ∈ upsert m held) :
    x = m ∨ x ∈ held := by
  induction held with
  | nil => exact Or.inl (List.mem_singleton.1 h)
  | cons other rest ih =>
    unfold upsert at h
    split at h
    · rcases List.mem_cons.1 h with rfl | h
      · exact Or.inl rfl
      · exact Or.inr (List.mem_cons_of_mem _ h)
    · rcases List.mem_cons.1 h with rfl | h
      · exact Or.inr List.mem_cons_self
      · exact (ih h).imp id (List.mem_cons_of_mem _)

theorem mem_upsert_self (m : Mix) (held : List Mix) : m ∈ upsert m held := by
  induction held with
  | nil => exact List.mem_singleton.2 rfl
  | cons other rest ih =>
    unfold upsert
    split
    · exact List.mem_cons_self
    · exact List.mem_cons_of_mem _ ih

/-- Every support in the list is in it afterwards. -/
theorem exists_mem_upsert {x m : Mix} {held : List Mix} (h : x ∈ held) :
    ∃ y ∈ upsert m held, y.support = x.support := by
  induction held with
  | nil => exact absurd h List.not_mem_nil
  | cons other rest ih =>
    unfold upsert
    split
    · rename_i hother
      rcases List.mem_cons.1 h with rfl | h
      · exact ⟨m, List.mem_cons_self, support_inj.2 hother.symm⟩
      · exact ⟨x, List.mem_cons_of_mem _ h, rfl⟩
    · rcases List.mem_cons.1 h with rfl | h
      · exact ⟨x, List.mem_cons_self, rfl⟩
      · obtain ⟨y, hy, hyx⟩ := ih h
        exact ⟨y, List.mem_cons_of_mem _ hy, hyx⟩

theorem nodup_upsert {m : Mix} {held : List Mix} (h : (held.map support).Nodup) :
    ((upsert m held).map support).Nodup := by
  induction held with
  | nil => simp [upsert]
  | cons other rest ih =>
    obtain ⟨hother, hrest⟩ := List.nodup_cons.1 h
    unfold upsert
    split
    · rename_i heq
      rw [support_inj.2 heq] at hother
      exact List.nodup_cons.2 ⟨hother, hrest⟩
    · rename_i hne
      refine List.nodup_cons.2 ⟨?_, ih hrest⟩
      intro hmem
      obtain ⟨x, hx, hxo⟩ := List.mem_map.1 hmem
      rcases mem_of_mem_upsert hx with rfl | hx
      · exact hne (support_inj.1 hxo).symm
      · exact hother (List.mem_map.2 ⟨x, hx, hxo⟩)

/-- What holds of no mixes, and is kept when one of `ms` comes in, holds of their collection. -/
theorem collect_induction {motive : List Mix → Prop} (ms : List Mix) (start : motive [])
    (step : ∀ held, motive held → ∀ m ∈ ms, motive (upsert m held)) : motive (collect ms) :=
  List.foldlRecOn ms (fun held m => upsert m held) start step

theorem mem_of_mem_collect {x : Mix} {ms : List Mix} (h : x ∈ collect ms) : x ∈ ms := by
  have hall : ∀ y ∈ collect ms, y ∈ ms := by
    refine collect_induction (motive := fun held => ∀ y ∈ held, y ∈ ms) ms ?_ ?_
    · intro y hy
      exact absurd hy List.not_mem_nil
    · intro held hheld m hm y hy
      rcases mem_of_mem_upsert hy with rfl | hy
      · exact hm
      · exact hheld y hy
  exact hall x h

/-- Collecting keeps every support. -/
theorem exists_mem_collect {x : Mix} {ms : List Mix} (h : x ∈ ms) :
    ∃ y ∈ collect ms, y.support = x.support := by
  -- On the way, the support is still to come or in the list already.
  have general (ms held : List Mix) (h : x ∈ ms ∨ ∃ y ∈ held, y.support = x.support) :
      ∃ y ∈ ms.foldl (fun held m => upsert m held) held, y.support = x.support := by
    induction ms generalizing held with
    | nil => exact h.resolve_left List.not_mem_nil
    | cons m ms ih =>
      apply ih
      rcases h with h | ⟨y, hy, hyx⟩
      · rcases List.mem_cons.1 h with rfl | h
        · exact Or.inr ⟨x, mem_upsert_self x held, rfl⟩
        · exact Or.inl h
      · obtain ⟨z, hz, hzy⟩ := exists_mem_upsert (m := m) hy
        exact Or.inr ⟨z, hz, hzy.trans hyx⟩
  exact general ms [] (Or.inl h)

theorem nodup_collect (ms : List Mix) : ((collect ms).map support).Nodup := by
  refine collect_induction (motive := fun held => (held.map support).Nodup) ms ?_ ?_
  · exact List.nodup_nil
  · intro held hheld m _
    exact nodup_upsert hheld

/-! ### Lists that have one mix for each support already -/

theorem upsert_of_forall_ne {m : Mix} {held : List Mix} (h : ∀ x ∈ held, x.indexes ≠ m.indexes) :
    upsert m held = held ++ [m] := by
  induction held with
  | nil => rfl
  | cons other rest ih =>
    obtain ⟨hother, hrest⟩ := List.forall_mem_cons.1 h
    rw [upsert, if_neg hother, ih hrest, List.cons_append]

theorem collect_of_nodup {ms : List Mix} (h : (ms.map indexes).Nodup) : collect ms = ms := by
  induction ms using List.reverseRecOn with
  | nil => rfl
  | append_singleton ms m ih =>
    rw [List.map_append, List.nodup_append] at h
    obtain ⟨hms, -, hdisjoint⟩ := h
    rw [collect, List.foldl_concat]
    change upsert m (collect ms) = ms ++ [m]
    rw [ih hms]
    exact upsert_of_forall_ne fun x hx =>
      hdisjoint _ (List.mem_map_of_mem hx) _ (List.mem_singleton_self _)

/-- If no mixes are lost on the way into a list, they come in as they are. -/
theorem collect_of_le_length {ms : List Mix} (h : ms.length ≤ (collect ms).length) :
    collect ms = ms := by
  have hnodup : ((collect ms).map indexes).Nodup := by
    refine List.Nodup.of_map IndexSet.toFinset ?_
    rw [List.map_map]
    exact nodup_collect ms
  have hsub : (collect ms).map indexes ⊆ ms.map indexes :=
    List.map_subset _ fun _ hx => mem_of_mem_collect hx
  have hperm := (hnodup.subperm hsub).perm_of_length_le (by simpa using h)
  exact collect_of_nodup (hperm.nodup_iff.1 hnodup)

end UrReplay.Fountain.Mix
