import UrReplay.Fountain.Decoder
import UrReplay.Proofs.Fountain.IndexSet
import UrReplay.Proofs.Random.Sampling
/-!
# UrReplay.Proofs.Fountain.Choice

Which fragments a part mixes is a choice among those of the message (`exists_chooseFragments`): at least
one, none twice, and all of them exist. A generator has its say in which ones they are, but not in that:
a mixture is a choice whatever numbers are drawn and however they are rounded (`Xoshiro.isChoice_mixture`).

Only the parts of a message in no fragments have no choice, but for the one with number zero
(`Part.mix?_eq`). Of every other part, `Part.indexes` are the fragments that it mixes.
-/

namespace UrReplay

namespace Fountain

/-- A choice among `n` fragments: at least one, none twice, and all of them exist. -/
structure IsChoice (n : Nat) (chosen : List Nat) : Prop where
  nonempty : chosen ≠ []
  nodup : chosen.Nodup
  lt : ∀ i ∈ chosen, i < n

theorem IsChoice.length_le {n : Nat} {chosen : List Nat} (h : IsChoice n chosen) :
    chosen.length ≤ n := by
  have hsub : chosen ⊆ List.range n := fun i hi => List.mem_range.2 (h.lt i hi)
  have hle := (h.nodup.subperm hsub).length_le
  rwa [List.length_range] at hle

end Fountain

/-- The fragments that a generator picks from `n`: it draws how many, and then which. -/
def Xoshiro.mixture (g : Xoshiro) (n : Nat) (hn : 0 < n) : List Nat :=
  ((g.degree n hn).2.sample n (g.degree n hn).1).1

/-- Whatever a generator picks is a choice. -/
theorem Xoshiro.isChoice_mixture (g : Xoshiro) {n : Nat} (hn : 0 < n) :
    Fountain.IsChoice n (g.mixture n hn) := by
  obtain ⟨hpos, hle⟩ := g.degree_spec n hn
  obtain ⟨hnodup, hlt, hlength⟩ := (g.degree n hn).2.sample_spec n (g.degree n hn).1
  rw [Nat.min_eq_right hle] at hlength
  refine ⟨?_, hnodup, hlt⟩
  rw [← List.length_pos_iff, mixture, hlength]
  exact hpos

namespace Fountain

/-- The first parts carry one fragment each, in order. -/
theorem chooseFragments_of_le {seqNum : UInt32} {seqLen : Nat} (h : seqNum.toNat ≤ seqLen)
    (checksum : UInt32) : chooseFragments seqNum seqLen checksum = some [seqNum.toNat - 1] := by
  rw [chooseFragments, if_pos h]

theorem chooseFragments_eq_singleton {seqNum : UInt32} {k seqLen : Nat} (hk : k < seqLen)
    (hnum : seqNum.toNat = k + 1) (checksum : UInt32) :
    chooseFragments seqNum seqLen checksum = some [k] := by
  rw [chooseFragments_of_le (by omega), hnum, Nat.add_sub_cancel]

/-- Every later part carries a mixture. -/
theorem chooseFragments_of_lt {seqNum : UInt32} {seqLen : Nat} (hlen : 0 < seqLen)
    (h : seqLen < seqNum.toNat) (checksum : UInt32) :
    chooseFragments seqNum seqLen checksum =
      some ((mixingGenerator seqNum checksum).mixture seqLen hlen) := by
  rw [chooseFragments, if_neg (Nat.not_le_of_lt h), dif_pos hlen]
  rfl

/-- Where there are fragments, the choice among them does not panic. -/
theorem exists_chooseFragments (seqNum : UInt32) {seqLen : Nat} (checksum : UInt32)
    (hlen : 0 < seqLen) :
    ∃ chosen, chooseFragments seqNum seqLen checksum = some chosen ∧ IsChoice seqLen chosen := by
  rcases Nat.lt_or_ge seqLen seqNum.toNat with hlt | hge
  · exact ⟨_, chooseFragments_of_lt hlen hlt checksum, Xoshiro.isChoice_mixture _ hlen⟩
  · refine ⟨_, chooseFragments_of_le hge checksum, List.cons_ne_nil _ _, List.nodup_singleton _, ?_⟩
    intro i hi
    obtain rfl := List.mem_singleton.1 hi
    omega

theorem chooseFragments_eq_none_iff {seqNum : UInt32} {seqLen : Nat} {checksum : UInt32} :
    chooseFragments seqNum seqLen checksum = none ↔ seqLen = 0 ∧ seqNum ≠ 0 := by
  rcases Nat.eq_zero_or_pos seqLen with rfl | hlen
  · by_cases hnum : seqNum = 0
    · simp [hnum, chooseFragments_of_le]
    · have hpos : ¬seqNum.toNat ≤ 0 := fun hle =>
        hnum (UInt32.toNat_inj.1 (Nat.le_zero.1 hle))
      simp [chooseFragments, hpos, hnum]
  · obtain ⟨chosen, hchosen, -⟩ := exists_chooseFragments seqNum checksum hlen
    simp [hchosen, hlen.ne']

namespace Part

/-- The fragments that a part mixes. -/
def indexes (part : Part) : IndexSet := part.indexes?.getD (.ofList [])

/-- What a part carries: the sum of the fragments that it mixes. -/
def mix (part : Part) : Mix := ⟨part.indexes, part.data⟩

theorem indexes_of_chooseFragments {part : Part} {chosen : List Nat}
    (h : chooseFragments part.seqNum part.seqLen part.checksum = some chosen) :
    part.indexes = .ofList chosen := by
  rw [indexes, indexes?, h]
  rfl

/-- The indexes of a part are those that are chosen, in another order. -/
theorem exists_indexes (part : Part) (hlen : 0 < part.seqLen) :
    ∃ chosen, chooseFragments part.seqNum part.seqLen part.checksum = some chosen ∧
      IsChoice part.seqLen chosen ∧ (∀ i, i ∈ part.indexes ↔ i ∈ chosen) ∧
      chosen.Perm part.indexes.toList := by
  obtain ⟨chosen, hchosen, hchoice⟩ := exists_chooseFragments part.seqNum part.checksum hlen
  have hmem (i : Nat) : i ∈ part.indexes ↔ i ∈ chosen := by
    rw [indexes_of_chooseFragments hchosen, IndexSet.mem_ofList]
  refine ⟨chosen, hchosen, hchoice, hmem, ?_⟩
  exact (List.perm_ext_iff_of_nodup hchoice.nodup part.indexes.nodup_toList).2 fun i => (hmem i).symm

/-- The parts of no fragments panic, but for the one with number zero. Every other part has its mix. -/
theorem mix?_eq (part : Part) :
    part.mix? = if part.seqLen = 0 ∧ part.seqNum ≠ 0 then none else some part.mix := by
  split
  · rename_i h
    rw [mix?, Option.map_eq_none_iff, indexes?, Option.map_eq_none_iff]
    exact chooseFragments_eq_none_iff.2 h
  · rename_i h
    rw [mix?, mix, indexes]
    cases hindexes : part.indexes? with
    | none => exact absurd (chooseFragments_eq_none_iff.1 (Option.map_eq_none_iff.1 hindexes)) h
    | some indexes => rfl

end Part

end Fountain

end UrReplay
