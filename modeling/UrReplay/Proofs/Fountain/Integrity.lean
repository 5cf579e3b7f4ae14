import UrReplay.Proofs.Fountain.Invariant
/-!
# UrReplay.Proofs.Fountain.Integrity

What a transfer ends with, whatever the parts say: a message of the announced length with the
announced check value, or else a mismatch that names the announced check value and the one of the
fragments that were recovered (`completed_integrity`).

The invariant is all there is to rely on. When a transfer has ended, as many fragments are recovered
as it has, and their indexes are below that number, so they are all of them (`map_fst_recovered`).
They have the announced length, and enough of them for the message (`length_assemble`).
-/

namespace UrReplay.Fountain

namespace Decoder

variable {d : Decoder} {t : Transfer}

/-- The fragments that are recovered, in the order of their indexes. -/
def fragments (d : Decoder) : List Bytes := d.recovered.toList.map Prod.snd

theorem assemble_eq (d : Decoder) (t : Transfer) :
    d.assemble t = d.fragments.flatten.take t.messageLen := by
  rw [assemble, fragments, List.flatMap_def]

/-- In the end, the known indexes are those of the transfer. -/
theorem Finished.known_eq (h : Finished t d) : d.known = Finset.range t.seqLen := by
  refine Finset.eq_of_subset_of_card_le ?_ ?_
  · intro i hi
    obtain ⟨data, hdata⟩ := mem_known_iff_exists.1 hi
    have hlt := (h.within _ (.recovered hdata)).lt i
    rw [Mix.support_ofFragment] at hlt
    exact Finset.mem_range.2 (hlt (Finset.mem_singleton_self i))
  · rw [Finset.card_range, h.full]

/-- In the end, the recovered fragments are listed under the indexes of the transfer, in order. -/
theorem Finished.map_fst_recovered (h : Finished t d) :
    d.recovered.toList.map Prod.fst = List.range t.seqLen := by
  rw [Std.TreeMap.map_fst_toList_eq_keys]
  refine IndexSet.eq_of_ascending ?_ List.pairwise_lt_range ?_
  · exact Std.TreeMap.ordered_keys.imp fun hij => Nat.compare_eq_lt.1 hij
  · rw [List.toFinset_range]
    exact h.known_eq

theorem Finished.length_fragments (h : Finished t d) : d.fragments.length = t.seqLen := by
  have hlength := congrArg List.length h.map_fst_recovered
  rw [List.length_map, List.length_range] at hlength
  rw [fragments, List.length_map, hlength]

/-- In the end, every index of the transfer has its fragment. -/
theorem Finished.map_recovered (h : Finished t d) :
    (List.range t.seqLen).map (d.recovered[·]?) = d.fragments.map some := by
  rw [← h.map_fst_recovered, fragments, List.map_map, List.map_map]
  refine List.map_congr_left ?_
  intro entry hentry
  exact Std.TreeMap.mem_toList_iff_getElem?_eq_some.1 hentry

theorem Finished.length_of_mem_fragments (h : Finished t d) :
    ∀ f ∈ d.fragments, f.length = t.fragmentLen := by
  intro f hf
  obtain ⟨⟨i, data⟩, hentry, rfl⟩ := List.mem_map.1 hf
  exact (h.within _ (.recovered (Std.TreeMap.mem_toList_iff_getElem?_eq_some.1 hentry))).length

/-- The fragments of a finished transfer hold a message of the announced length. -/
theorem Finished.length_assemble (h : Finished t d) (hfragment : 0 < t.fragmentLen)
    (hseq : t.seqLen = fragmentCount t.messageLen t.fragmentLen) :
    (d.assemble t).length = t.messageLen := by
  have hflatten : d.fragments.flatten.length = t.seqLen * t.fragmentLen := by
    rw [List.length_flatten, List.map_congr_left h.length_of_mem_fragments, List.map_const',
      List.sum_replicate, h.length_fragments, smul_eq_mul]
  have hle := le_fragmentCount_mul t.messageLen hfragment
  rw [assemble_eq, List.length_take, hflatten, hseq, Nat.min_eq_left hle]

/-- A decoder that has ended is finished with the transfer of the first accepted part. -/
theorem exists_finished {parts : List Part} (hparts : ∀ part ∈ parts, 1 ≤ part.messageLen)
    (hcomplete : (empty.receiveAll parts).isComplete = true) :
    ∃ first, (empty.accepted parts).head? = some first ∧ first.flaw? = none ∧
      Finished first.transfer (empty.receiveAll parts) := by
  obtain ⟨t, hfinished⟩ := (settled_receiveAll hparts).exists_finished hcomplete
  have htransfer := transfer_receiveAll parts
  rw [hfinished.transfer] at htransfer
  obtain ⟨first, hfirst, rfl⟩ := Option.map_eq_some_iff.1 htransfer.symm
  exact ⟨first, hfirst, flaw?_of_mem_accepted (List.mem_of_mem_head? hfirst), hfinished⟩

theorem isSuccessful_iff : d.isSuccessful = true ↔ ∃ message, d.message? = some message := by
  rw [isSuccessful, Option.isSome_iff_exists]

theorem message?_eq_some_iff {message : Bytes} :
    d.message? = some message ↔ d.outcome = some (.ok message) := by
  unfold message?
  split
  · rename_i h
    rw [h]
    simp
  · rename_i h
    constructor
    · intro hnone
      exact absurd hnone (by simp)
    · intro hok
      exact absurd hok (h message)

theorem failure?_eq_some_iff {mismatch : ChecksumMismatch} :
    d.failure? = some mismatch ↔ d.outcome = some (.error mismatch) := by
  unfold failure?
  split
  · rename_i h
    rw [h]
    simp
  · rename_i h
    constructor
    · intro hnone
      exact absurd hnone (by simp)
    · intro herror
      exact absurd herror (h mismatch)

/-- A message is what was put together, and has the announced check value. -/
theorem Finished.eq_assemble (h : Finished t d) {message : Bytes}
    (hmessage : d.message? = some message) :
    message = d.assemble t ∧ Crc32.checksum (d.assemble t) = t.checksum := by
  have houtcome := message?_eq_some_iff.1 hmessage
  rw [h.outcome, Option.some.injEq, verdict] at houtcome
  split at houtcome
  · rename_i hchecksum
    exact ⟨(Except.ok.inj houtcome).symm, hchecksum⟩
  · exact absurd houtcome (by simp)

/-- Without a message, what was put together has another check value. -/
theorem Finished.failure?_eq (h : Finished t d) (hfailed : d.isSuccessful = false) :
    d.failure? = some ⟨t.checksum, Crc32.checksum (d.assemble t)⟩ ∧
      Crc32.checksum (d.assemble t) ≠ t.checksum := by
  have houtcome := h.outcome
  rw [verdict] at houtcome
  split at houtcome
  · have hmessage := message?_eq_some_iff.2 houtcome
    rw [isSuccessful, hmessage] at hfailed
    exact absurd hfailed (by simp)
  · rename_i hchecksum
    exact ⟨failure?_eq_some_iff.2 houtcome, hchecksum⟩

/-- Integrity, whatever the parts carry. A decoder that has ended has every fragment of the transfer
that the first accepted part announced, and puts them together in order, cut to the announced
length. If it is successful, that is the message, which has the announced length and check value; if
not, it reports the announced check value and the other one that it found. It ends in no other
way. -/
theorem completed_integrity (parts : List Part) (hparts : ∀ part ∈ parts, 1 ≤ part.messageLen) :
    let d := empty.receiveAll parts
    let first? := (empty.accepted parts).head?
    (d.isSuccessful = true → ∃ (first : Part) (message : Bytes), first? = some first ∧
        d.message? = some message ∧ message.length = first.messageLen ∧
        Crc32.checksum message = first.checksum) ∧
      (d.isComplete = true → ∃ (first : Part) (fragments : List Bytes), first? = some first ∧
        (List.range first.seqLen).map (d.recovered[·]?) = fragments.map some ∧
        let message := fragments.flatten.take first.messageLen
        (d.isSuccessful = true → d.message? = some message) ∧
        (d.isSuccessful = false → ∃ mismatch, d.failure? = some mismatch ∧
          mismatch.expected = first.checksum ∧ mismatch.actual = Crc32.checksum message ∧
          mismatch.actual ≠ mismatch.expected)) ∧
      (d.isComplete = true ↔ (d.message?.isSome ^^ d.failure?.isSome) = true) := by
  intro d first?
  refine ⟨?_, ?_, ?_⟩
  · intro hsuccess
    obtain ⟨message, hmessage⟩ := isSuccessful_iff.1 hsuccess
    have houtcome := message?_eq_some_iff.1 hmessage
    have hcomplete : d.isComplete = true := by rw [isComplete, houtcome]; rfl
    obtain ⟨first, hfirst, hflaw, hfinished⟩ := exists_finished hparts hcomplete
    obtain ⟨hdata, hseq, -⟩ := Part.flaw?_eq_none_iff.1 hflaw
    obtain ⟨rfl, hchecksum⟩ := hfinished.eq_assemble hmessage
    exact ⟨first, _, hfirst, hmessage,
      hfinished.length_assemble (List.length_pos_iff.2 hdata) hseq, hchecksum⟩
  · intro hcomplete
    obtain ⟨first, hfirst, -, hfinished⟩ := exists_finished hparts hcomplete
    refine ⟨first, d.fragments, hfirst, hfinished.map_recovered, ?_, ?_⟩
    · intro hsuccess
      obtain ⟨message, hmessage⟩ := isSuccessful_iff.1 hsuccess
      rw [hmessage, (hfinished.eq_assemble hmessage).1, assemble_eq]
      rfl
    · intro hfailed
      obtain ⟨hmismatch, hchecksum⟩ := hfinished.failure?_eq hfailed
      refine ⟨_, hmismatch, rfl, ?_, hchecksum⟩
      rw [assemble_eq]
      rfl
  · unfold isComplete message? failure?
    cases d.outcome with
    | none => simp
    | some outcome => cases outcome <;> simp

/-- Two fragments that do not have the announced check value. -/
theorem completed_integrity_mismatch :
    let parts : List Part := [⟨1, 2, 2, 0, [0x2a]⟩, ⟨2, 2, 2, 0, [0x17]⟩]
    (∀ part ∈ parts, 1 ≤ part.messageLen) ∧ (empty.receiveAll parts).isComplete = true ∧
      ∃ mismatch, (empty.receiveAll parts).failure? = some mismatch ∧
        mismatch.actual ≠ mismatch.expected := by
  intro parts
  have hparts : ∀ part ∈ parts, 1 ≤ part.messageLen := by decide
  have hcomplete : (empty.receiveAll parts).isComplete = true := by decide +kernel
  have hfailed : (empty.receiveAll parts).isSuccessful = false := by decide +kernel
  obtain ⟨-, hended, -⟩ := completed_integrity parts hparts
  obtain ⟨first, fragments, -, -, -, hmismatch⟩ := hended hcomplete
  obtain ⟨mismatch, hfailure, -, -, hne⟩ := hmismatch hfailed
  exact ⟨hparts, hcomplete, mismatch, hfailure, hne⟩

end Decoder

end UrReplay.Fountain
