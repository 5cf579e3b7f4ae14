import Mathlib
import UrReplay.Fountain.FragmentLength
/-!
# UrReplay.Proofs.Fountain.FragmentLength

How many fragments a message needs, and how long they are. `fragmentCount_le_iff` says which lengths
are enough for a number of fragments, and `firstLength?_eq_some_iff` which length the search finds.

The number of fragments for a length and the length for a number of fragments are the same quotient, so
each bounds the other (`fragmentCount_le_comm`). The search goes through numbers of fragments, and what is
asked of its result speaks of lengths; this symmetry takes one to the other (`fragmentLength?_optimal`).
-/

namespace UrReplay.Fountain

variable {messageLen count len maxLen : Nat}

/-! ### Enough for the message -/

theorem fragmentCount_pos (hmessage : 0 < messageLen) (hcount : 0 < count) :
    0 < fragmentCount messageLen count :=
  Nat.div_pos (by omega) hcount

/-- The quotient is the least that gives room for the message. -/
theorem fragmentCount_le_iff (hcount : 0 < count) :
    fragmentCount messageLen count ≤ len ↔ messageLen ≤ count * len := by
  rw [fragmentCount, Nat.div_le_iff_le_mul hcount, Nat.mul_comm]
  omega

theorem fragmentCount_le_self (hcount : 0 < count) : fragmentCount messageLen count ≤ messageLen :=
  (fragmentCount_le_iff hcount).2 (Nat.le_mul_of_pos_left messageLen hcount)

/-- As many fragments as a message needs hold all of it. -/
theorem le_fragmentCount_mul (messageLen : Nat) (hcount : 0 < count) :
    messageLen ≤ fragmentCount messageLen count * count := by
  rw [Nat.mul_comm]
  exact (fragmentCount_le_iff hcount).1 (Nat.le_refl _)

/-! ### Lengths and numbers of fragments -/

theorem fragmentCount_eq_ceilDiv (messageLen len : Nat) :
    fragmentCount messageLen len = messageLen ⌈/⌉ len :=
  (Nat.ceilDiv_eq_add_pred_div messageLen len).symm

@[simp] theorem fragmentCount_one (messageLen : Nat) : fragmentCount messageLen 1 = messageLen := by
  simp [fragmentCount]

/-- So many fragments are short enough if and only if fragments of that length are few enough. -/
theorem fragmentCount_le_comm (hcount : 0 < count) (hlen : 0 < len) :
    fragmentCount messageLen count ≤ len ↔ fragmentCount messageLen len ≤ count := by
  rw [fragmentCount_le_iff hcount, fragmentCount_le_iff hlen, Nat.mul_comm]

/-- Shorter fragments are not fewer. -/
theorem fragmentCount_anti (hlen : 0 < len) (hle : len ≤ maxLen) :
    fragmentCount messageLen maxLen ≤ fragmentCount messageLen len := by
  rw [fragmentCount_le_iff (Nat.lt_of_lt_of_le hlen hle)]
  calc messageLen
      ≤ fragmentCount messageLen len * len := le_fragmentCount_mul messageLen hlen
    _ ≤ fragmentCount messageLen len * maxLen := Nat.mul_le_mul_left _ hle
    _ = maxLen * fragmentCount messageLen len := Nat.mul_comm _ _

/-- The length for the number of fragments that a length needs is not greater. -/
theorem fragmentCount_fragmentCount_le (hmessage : 0 < messageLen) (hlen : 0 < len) :
    fragmentCount messageLen (fragmentCount messageLen len) ≤ len :=
  (fragmentCount_le_comm (fragmentCount_pos hmessage hlen) hlen).2 (Nat.le_refl _)

/-- The length for the number of fragments that a length needs gives that number again. -/
theorem fragmentCount_fragmentCount_fragmentCount (hmessage : 0 < messageLen) (hlen : 0 < len) :
    fragmentCount messageLen (fragmentCount messageLen (fragmentCount messageLen len)) =
      fragmentCount messageLen len := by
  have hcount := fragmentCount_pos hmessage hlen
  exact Nat.le_antisymm (fragmentCount_fragmentCount_le hmessage hcount)
    (fragmentCount_anti (fragmentCount_pos hmessage hcount)
      (fragmentCount_fragmentCount_le hmessage hlen))

/-! ### The search -/

/-- The search stops at the first count that keeps the fragments short enough. -/
theorem firstLength?_eq_some_iff {candidates : Nat} :
    firstLength? messageLen maxLen candidates count = some len ↔
      ∃ c, count ≤ c ∧ c < count + candidates ∧ fragmentCount messageLen c = len ∧ len ≤ maxLen ∧
        ∀ c', count ≤ c' → c' < c → maxLen < fragmentCount messageLen c' := by
  induction candidates generalizing count with
  | zero =>
    simp only [firstLength?, reduceCtorEq, false_iff, not_exists]
    omega
  | succ candidates ih =>
    rw [firstLength?]
    split
    · rename_i hle
      rw [Option.some.injEq]
      constructor
      · intro hlen
        exact ⟨count, Nat.le_refl count, by omega, hlen, hlen ▸ hle, by omega⟩
      · intro h
        obtain ⟨c, hcount, -, rfl, -, hlong⟩ := h
        rcases Nat.eq_or_lt_of_le hcount with rfl | hlt
        · rfl
        · exact absurd hle (Nat.not_le_of_lt (hlong count (Nat.le_refl count) hlt))
    · rename_i hlong
      rw [ih]
      constructor
      · intro h
        obtain ⟨c, hcount, hc, hlen, hle, hbefore⟩ := h
        refine ⟨c, by omega, by omega, hlen, hle, ?_⟩
        intro c' hc' hlt
        rcases Nat.eq_or_lt_of_le hc' with rfl | hlt'
        · exact Nat.lt_of_not_le hlong
        · exact hbefore c' hlt' hlt
      · intro h
        obtain ⟨c, hcount, hc, hlen, hle, hbefore⟩ := h
        have hne : count ≠ c := by
          rintro rfl
          exact hlong (hlen ▸ hle)
        exact ⟨c, by omega, by omega, hlen, hle, fun c' hc' => hbefore c' (by omega)⟩

/-- The search finds nothing if all counts leave the fragments too long. -/
theorem firstLength?_eq_none_iff {candidates : Nat} :
    firstLength? messageLen maxLen candidates count = none ↔
      ∀ c, count ≤ c → c < count + candidates → maxLen < fragmentCount messageLen c := by
  induction candidates generalizing count with
  | zero =>
    simp only [firstLength?, true_iff]
    omega
  | succ candidates ih =>
    rw [firstLength?]
    split
    · rename_i hle
      simp only [reduceCtorEq, false_iff, not_forall]
      exact ⟨count, Nat.le_refl count, by omega, Nat.not_lt_of_le hle⟩
    · rename_i hlong
      rw [ih]
      constructor
      · intro h c hcount hc
        rcases Nat.eq_or_lt_of_le hcount with rfl | hlt
        · exact Nat.lt_of_not_le hlong
        · exact h c hlt (by omega)
      · intro h c hcount hc
        exact h c (by omega) (by omega)

theorem fragmentLength?_eq_none_iff {minLen : Nat} :
    fragmentLength? messageLen minLen maxLen = none ↔
      ∀ count, 1 ≤ count → count ≤ max 1 (messageLen / max 1 minLen) →
        maxLen < fragmentCount messageLen count := by
  rw [fragmentLength?, firstLength?_eq_none_iff]
  refine forall₂_congr fun count _ => ?_
  rw [Nat.add_comm, Nat.lt_succ_iff]

/-- The first number of fragments that is enough is the one for the greatest length. -/
theorem fragmentLength?_eq {minLen : Nat} (hmessage : 0 < messageLen) (hmax : 0 < maxLen) :
    fragmentLength? messageLen minLen maxLen =
      if fragmentCount messageLen maxLen ≤ max 1 (messageLen / max 1 minLen) then
        some (fragmentCount messageLen (fragmentCount messageLen maxLen))
      else none := by
  have hcount := fragmentCount_pos hmessage hmax
  split
  · rename_i hle
    refine firstLength?_eq_some_iff.2 ⟨_, hcount, by omega, rfl,
      fragmentCount_fragmentCount_le hmessage hmax, ?_⟩
    intro c hc hlt
    rwa [← Nat.not_le, fragmentCount_le_comm hc hmax, Nat.not_le]
  · rename_i hmany
    refine fragmentLength?_eq_none_iff.2 fun c hc hle => ?_
    rw [← Nat.not_le, fragmentCount_le_comm hc hmax]
    omega

/-- Fragments are not shorter than asked for, unless there is only one. -/
theorem min_le_fragmentCount {minLen : Nat} (hcount : 0 < count)
    (hle : count ≤ max 1 (messageLen / max 1 minLen)) :
    min messageLen minLen ≤ fragmentCount messageLen count := by
  rcases Nat.eq_or_lt_of_le (show 1 ≤ count from hcount) with rfl | hmany
  · rw [fragmentCount_one]
    exact Nat.min_le_left _ _
  · have hfloor : count ≤ messageLen / max 1 minLen := by omega
    have hfull : count * max 1 minLen ≤ messageLen :=
      (Nat.le_div_iff_mul_le (by omega)).1 hfloor
    refine Nat.le_trans (Nat.min_le_right _ _) (Nat.le_of_mul_le_mul_left ?_ hcount)
    calc count * minLen
        ≤ count * max 1 minLen := Nat.mul_le_mul_left _ (Nat.le_max_right _ _)
      _ ≤ messageLen := hfull
      _ ≤ count * fragmentCount messageLen count := (fragmentCount_le_iff hcount).1 (Nat.le_refl _)

/-- Whether there is a length, and which one, in closed form. The length keeps both limits, no length up
to the greater limit needs fewer fragments, and no shorter one is enough for so few. -/
theorem fragmentLength?_optimal (messageLen minLen maxLen : Nat) (hmessage : 1 ≤ messageLen)
    (hmax : 1 ≤ maxLen) :
    let count := messageLen ⌈/⌉ maxLen
    (fragmentLength? messageLen minLen maxLen =
        if count ≤ max 1 (messageLen / max minLen 1) then some (messageLen ⌈/⌉ count) else none) ∧
      ∀ len, fragmentLength? messageLen minLen maxLen = some len →
        len ≤ maxLen ∧ min messageLen minLen ≤ len ∧ count = messageLen ⌈/⌉ len ∧
          (∀ other, 1 ≤ other → other ≤ maxLen → count ≤ messageLen ⌈/⌉ other) ∧
          ∀ other, 1 ≤ other → other < len → count < messageLen ⌈/⌉ other := by
  intro count
  simp only [count, ← fragmentCount_eq_ceilDiv]
  have hcount := fragmentCount_pos hmessage hmax
  rw [fragmentLength?_eq hmessage hmax, Nat.max_comm 1 minLen]
  refine ⟨rfl, ?_⟩
  intro len hlen
  rw [Option.ite_none_right_eq_some, Option.some.injEq] at hlen
  obtain ⟨hle, rfl⟩ := hlen
  rw [Nat.max_comm minLen 1] at hle
  refine ⟨fragmentCount_fragmentCount_le hmessage hmax, min_le_fragmentCount hcount hle,
    (fragmentCount_fragmentCount_fragmentCount hmessage hmax).symm, ?_, ?_⟩
  · intro other hother hother'
    exact fragmentCount_anti hother hother'
  · intro other hother hshort
    rwa [← Nat.not_le, fragmentCount_le_comm hother hcount, Nat.not_le]

/-- A message of 259 bytes with at most thirty in a fragment. -/
theorem fragmentLength?_optimal_nine_fragments :
    1 ≤ 259 ∧ 1 ≤ 30 ∧ fragmentLength? 259 10 30 = some 29 ∧ 259 ⌈/⌉ 29 = 9 ∧
      ∀ other, 1 ≤ other → other ≤ 30 → 9 ≤ 259 ⌈/⌉ other := by
  obtain ⟨hlen, hoptimal⟩ := fragmentLength?_optimal 259 10 30 (by decide) (by decide)
  obtain ⟨-, -, hcount, hfewest, -⟩ := hoptimal 29 hlen
  exact ⟨by decide, by decide, hlen, hcount.symm, hfewest⟩

end UrReplay.Fountain
