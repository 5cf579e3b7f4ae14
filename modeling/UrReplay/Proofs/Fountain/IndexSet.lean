import Mathlib.Data.Finset.Card
import UrReplay.Fountain.IndexSet
/-!
# UrReplay.Proofs.Fountain.IndexSet

Index sets as finite sets. `toFinset` forgets the order of the members, and every operation on
ascending lists is the set operation it stands for: `isSubset` decides `⊆`, `sdiff` is `\`, and equal
finite sets come from equal index sets.
-/

namespace UrReplay.IndexSet

/-- The members as a finite set. -/
def toFinset (s : IndexSet) : Finset Nat := s.toList.toFinset

@[simp] theorem mem_toFinset {i : Nat} {s : IndexSet} : i ∈ s.toFinset ↔ i ∈ s := by
  simp [toFinset, mem_def]

/-- Ascending lists with the same members are equal. -/
theorem eq_of_ascending {a b : List Nat} (ha : a.Pairwise (· < ·)) (hb : b.Pairwise (· < ·))
    (h : a.toFinset = b.toFinset) : a = b := by
  have hperm := List.perm_of_nodup_nodup_toFinset_eq (ha.imp Nat.ne_of_lt) (hb.imp Nat.ne_of_lt) h
  exact hperm.eq_of_pairwise (fun _ _ _ _ hij hji => absurd hij (Nat.lt_asymm hji)) ha hb

theorem nodup_toList (s : IndexSet) : s.toList.Nodup :=
  s.ascending.imp Nat.ne_of_lt

@[simp] theorem card_toFinset (s : IndexSet) : s.toFinset.card = s.card :=
  List.toFinset_card_of_nodup s.nodup_toList

/-- An index set is determined by its members. -/
theorem toFinset_injective : Function.Injective toFinset :=
  fun a b h => ext_toList (eq_of_ascending a.ascending b.ascending h)

@[simp] theorem toFinset_inj {a b : IndexSet} : a.toFinset = b.toFinset ↔ a = b :=
  toFinset_injective.eq_iff

@[simp] theorem toFinset_singleton (i : Nat) : (singleton i).toFinset = {i} := by
  simp [toFinset, singleton]

@[simp] theorem mem_singleton {i j : Nat} : j ∈ singleton i ↔ j = i := by
  simp [mem_def, singleton]

@[simp] theorem card_singleton (i : Nat) : (singleton i).card = 1 := rfl

/-- A set with one member is a singleton. -/
theorem card_eq_one_iff {s : IndexSet} : s.card = 1 ↔ ∃ i, s = singleton i := by
  constructor
  · intro h
    obtain ⟨i, hi⟩ := List.length_eq_one_iff.1 h
    exact ⟨i, ext_toList hi⟩
  · intro h
    obtain ⟨i, rfl⟩ := h
    rfl

/-! ### Subsets and differences

Both operations drop the members of the second list that lie below the next member of the first.
What is left is exactly what lies at or above it, because the second list ascends. -/

theorem mem_dropWhile_lt {i k : Nat} {l : List Nat} (h : l.Pairwise (· < ·)) :
    k ∈ l.dropWhile (· < i) ↔ k ∈ l ∧ i ≤ k := by
  induction l with
  | nil => simp
  | cons j l ih =>
    obtain ⟨hj, hl⟩ := List.pairwise_cons.1 h
    rw [List.dropWhile_cons]
    by_cases hji : j < i
    · rw [if_pos (by simpa using hji), ih hl, List.mem_cons]
      constructor
      · intro h
        obtain ⟨hk, hik⟩ := h
        exact ⟨Or.inr hk, hik⟩
      · intro h
        rcases h with ⟨rfl | hk, hik⟩
        · exact absurd hik (Nat.not_le.2 hji)
        · exact ⟨hk, hik⟩
    · rw [if_neg (by simpa using hji)]
      refine ⟨fun hk => ⟨hk, ?_⟩, fun hk => hk.1⟩
      rcases List.mem_cons.1 hk with rfl | hk
      · omega
      · have := hj k hk
        omega

/-- What a non-empty rest of the second list holds, and that it still ascends. -/
theorem rest_of_dropWhile {i j : Nat} {b rest : List Nat} (hb : b.Pairwise (· < ·))
    (hdrop : b.dropWhile (· < i) = j :: rest) :
    (∀ k, k ∈ j :: rest ↔ k ∈ b ∧ i ≤ k) ∧ (j :: rest).Pairwise (· < ·) := by
  rw [← hdrop]
  exact ⟨fun k => mem_dropWhile_lt hb, hb.sublist (List.dropWhile_sublist _)⟩

/-- If nothing is left of the second list, it has no member from `i` on. -/
theorem not_mem_of_dropWhile {i k : Nat} {b : List Nat} (hb : b.Pairwise (· < ·))
    (hdrop : b.dropWhile (· < i) = []) (hik : i ≤ k) : k ∉ b := by
  intro hk
  have hmem := (mem_dropWhile_lt hb).2 ⟨hk, hik⟩
  rw [hdrop] at hmem
  exact absurd hmem List.not_mem_nil

theorem isSubsetOf_iff {a b : List Nat} (ha : a.Pairwise (· < ·)) (hb : b.Pairwise (· < ·)) :
    isSubsetOf a b = true ↔ ∀ k ∈ a, k ∈ b := by
  fun_induction isSubsetOf a b with
  | case1 => simp
  | case2 i a b hdrop => simp [not_mem_of_dropWhile hb hdrop (Nat.le_refl i)]
  | case3 i a b j rest hdrop ih =>
    obtain ⟨hmem, hrest⟩ := rest_of_dropWhile hb hdrop
    obtain ⟨hi, ha⟩ := List.pairwise_cons.1 ha
    obtain ⟨hj, hrest⟩ := List.pairwise_cons.1 hrest
    rw [Bool.and_eq_true, decide_eq_true_eq, ih ha hrest, List.forall_mem_cons]
    constructor
    · intro h
      obtain ⟨rfl, hsub⟩ := h
      exact ⟨((hmem i).1 (by simp)).1,
        fun k hk => ((hmem k).1 (List.mem_cons_of_mem _ (hsub k hk))).1⟩
    · intro h
      obtain ⟨hib, hsub⟩ := h
      -- The first member that is not dropped is `j`, so `i` can only be that one.
      have hij : i = j := by
        rcases List.mem_cons.1 ((hmem i).2 ⟨hib, Nat.le_refl i⟩) with h | h
        · exact h
        · have h₁ := hj i h
          have h₂ := ((hmem j).1 (by simp)).2
          omega
      refine ⟨hij, ?_⟩
      intro k hk
      have hik := hi k hk
      rcases List.mem_cons.1 ((hmem k).2 ⟨hsub k hk, Nat.le_of_lt hik⟩) with h | h
      · omega
      · exact h

/-- The subset check decides inclusion. -/
theorem isSubset_iff {a b : IndexSet} : a.isSubset b = true ↔ a.toFinset ⊆ b.toFinset := by
  rw [isSubset, isSubsetOf_iff a.ascending b.ascending, Finset.subset_iff]
  simp [mem_def]

theorem mem_difference {a b : List Nat} (ha : a.Pairwise (· < ·)) (hb : b.Pairwise (· < ·))
    {k : Nat} : k ∈ difference a b ↔ k ∈ a ∧ k ∉ b := by
  fun_induction difference a b with
  | case1 => simp
  | case2 i a b hdrop =>
    refine ⟨fun hk => ⟨hk, not_mem_of_dropWhile hb hdrop ?_⟩, fun hk => hk.1⟩
    rcases List.mem_cons.1 hk with rfl | hk
    · exact Nat.le_refl k
    · exact Nat.le_of_lt ((List.pairwise_cons.1 ha).1 k hk)
  | case3 a b i rest hdrop ih =>
    obtain ⟨hmem, hrest⟩ := rest_of_dropWhile hb hdrop
    obtain ⟨hi, ha⟩ := List.pairwise_cons.1 ha
    have hib : i ∈ b := ((hmem i).1 (by simp)).1
    rw [ih ha (List.pairwise_cons.1 hrest).2]
    constructor
    · intro h
      obtain ⟨hk, hkrest⟩ := h
      refine ⟨List.mem_cons_of_mem _ hk, fun hkb => hkrest ?_⟩
      have hik := hi k hk
      rcases List.mem_cons.1 ((hmem k).2 ⟨hkb, Nat.le_of_lt hik⟩) with h | h
      · omega
      · exact h
    · intro h
      obtain ⟨hk, hkb⟩ := h
      rcases List.mem_cons.1 hk with rfl | hk
      · exact absurd hib hkb
      · exact ⟨hk, fun h => hkb ((hmem k).1 (List.mem_cons_of_mem _ h)).1⟩
  | case4 i a b j rest hdrop hij ih =>
    obtain ⟨hmem, hrest⟩ := rest_of_dropWhile hb hdrop
    obtain ⟨hi, ha⟩ := List.pairwise_cons.1 ha
    -- What is dropped lies below `i`, and what is left starts above it.
    have hib : i ∉ b := fun hib => by
      have h₁ := ((hmem j).1 (by simp)).2
      rcases List.mem_cons.1 ((hmem i).2 ⟨hib, Nat.le_refl i⟩) with h | h
      · exact hij h
      · have := (List.pairwise_cons.1 hrest).1 i h
        omega
    rw [List.mem_cons, ih ha hrest]
    constructor
    · intro h
      rcases h with rfl | ⟨hk, hkrest⟩
      · exact ⟨List.mem_cons_self, hib⟩
      · exact ⟨List.mem_cons_of_mem _ hk,
          fun hkb => hkrest ((hmem k).2 ⟨hkb, Nat.le_of_lt (hi k hk)⟩)⟩
    · intro h
      obtain ⟨hk, hkb⟩ := h
      rcases List.mem_cons.1 hk with rfl | hk
      · exact Or.inl rfl
      · exact Or.inr ⟨hk, fun h => hkb ((hmem k).1 h).1⟩

@[simp] theorem toFinset_sdiff (a b : IndexSet) :
    (a.sdiff b).toFinset = a.toFinset \ b.toFinset := by
  ext k
  simp only [mem_toFinset, Finset.mem_sdiff]
  exact mem_difference a.ascending b.ascending

end UrReplay.IndexSet
