/-!
# UrReplay.Fountain.IndexSet

Finite sets of fragment indexes, as strictly ascending lists. Equal sets are equal lists, so sets
can be compared with `=`, and each operation is one pass over the lists.
-/

namespace UrReplay

/-- A finite set of indexes. -/
structure IndexSet where
  /-- The members, from the least to the greatest. -/
  toList : List Nat
  ascending : toList.Pairwise (· < ·)

namespace IndexSet

/-- Whether two lists are the same. Sets are compared so often that this is worth a loop of its
own. -/
def sameList : List Nat → List Nat → Bool
  | [], [] => true
  | i :: a, j :: b => i == j && sameList a b
  | _, _ => false

theorem sameList_iff {a b : List Nat} : sameList a b = true ↔ a = b := by
  induction a generalizing b with
  | nil => cases b <;> simp [sameList]
  | cons i a ih => cases b <;> simp [sameList, ih]

@[ext] theorem ext_toList {a b : IndexSet} (h : a.toList = b.toList) : a = b := by
  cases a; cases b; simp_all

instance : DecidableEq IndexSet := fun a b =>
  decidable_of_iff (sameList a.toList b.toList = true)
    (sameList_iff.trans ⟨ext_toList, fun h => h ▸ rfl⟩)

instance : Membership Nat IndexSet := ⟨fun s i => i ∈ s.toList⟩

theorem mem_def {i : Nat} {s : IndexSet} : i ∈ s ↔ i ∈ s.toList := Iff.rfl

instance (i : Nat) (s : IndexSet) : Decidable (i ∈ s) :=
  inferInstanceAs (Decidable (i ∈ s.toList))

/-- The number of members. -/
def card (s : IndexSet) : Nat := s.toList.length

/-! ### Making sets -/

/-- The set with one member. -/
def singleton (i : Nat) : IndexSet := ⟨[i], by simp⟩

/-- An ascending list without its repetitions. -/
def withoutRepeats : List Nat → List Nat
  | [] => []
  | [i] => [i]
  | i :: j :: rest =>
    if i = j then withoutRepeats (j :: rest) else i :: withoutRepeats (j :: rest)

theorem mem_withoutRepeats {i : Nat} {l : List Nat} : i ∈ withoutRepeats l ↔ i ∈ l := by
  fun_induction withoutRepeats l with
  | case1 => simp
  | case2 => simp
  | case3 j rest ih => simp [ih]
  | case4 i' j rest h ih => simp only [List.mem_cons, ih]

theorem pairwise_withoutRepeats {l : List Nat} (h : l.Pairwise (· ≤ ·)) :
    (withoutRepeats l).Pairwise (· < ·) := by
  fun_induction withoutRepeats l with
  | case1 => simp
  | case2 => simp
  | case3 j rest ih => exact ih (List.pairwise_cons.1 h).2
  | case4 i j rest hij ih =>
    obtain ⟨hi, hrest⟩ := List.pairwise_cons.1 h
    refine List.pairwise_cons.2 ⟨fun k hk => ?_, ih hrest⟩
    have hk := mem_withoutRepeats.1 hk
    have hj : i < j := by
      have := hi j (by simp)
      omega
    rcases List.mem_cons.1 hk with rfl | hk
    · exact hj
    · have := (List.pairwise_cons.1 hrest).1 k hk
      omega

theorem pairwise_mergeSort (l : List Nat) : (l.mergeSort (· ≤ ·)).Pairwise (· ≤ ·) := by
  have trans (a b c : Nat) (hab : decide (a ≤ b) = true) (hbc : decide (b ≤ c) = true) :
      decide (a ≤ c) = true := by simp_all; omega
  have total (a b : Nat) : (decide (a ≤ b) || decide (b ≤ a)) = true := by simp; omega
  simpa using List.pairwise_mergeSort trans total l

/-- The set of the members of a list. -/
def ofList (l : List Nat) : IndexSet :=
  ⟨withoutRepeats (l.mergeSort (· ≤ ·)), pairwise_withoutRepeats (pairwise_mergeSort l)⟩

@[simp] theorem mem_ofList {i : Nat} {l : List Nat} : i ∈ ofList l ↔ i ∈ l := by
  simp [mem_def, ofList, mem_withoutRepeats, List.mem_mergeSort]

/-! ### Subsets and differences -/

/-- Whether every member of the first list is in the second; both ascend. -/
def isSubsetOf : List Nat → List Nat → Bool
  | [], _ => true
  | i :: a, b =>
    match b.dropWhile (· < i) with
    | [] => false
    | j :: b => i = j && isSubsetOf a b

/-- Whether every member of `a` is in `b`. -/
def isSubset (a b : IndexSet) : Bool := isSubsetOf a.toList b.toList

/-- The members of the first list that are not in the second; both ascend. -/
def difference : List Nat → List Nat → List Nat
  | [], _ => []
  | i :: a, b =>
    match b.dropWhile (· < i) with
    | [] => i :: a
    | j :: b => if i = j then difference a b else i :: difference a (j :: b)

theorem difference_sublist (a b : List Nat) : (difference a b).Sublist a := by
  fun_induction difference a b with
  | case1 => simp
  | case2 => simp
  | case3 _ i a _ _ ih => exact ih.cons _
  | case4 _ i a _ _ _ _ ih => exact ih.cons_cons _

/-- The members of `a` that are not in `b`. -/
def sdiff (a b : IndexSet) : IndexSet :=
  ⟨difference a.toList b.toList, a.ascending.sublist (difference_sublist _ _)⟩

end IndexSet

end UrReplay
