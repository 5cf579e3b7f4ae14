import UrReplay.Proofs.Fountain.Run
/-!
# UrReplay.Proofs.Fountain.Derivation

Reductions never invent data: whatever a decoder stores is the exclusive or of some of the parts it
accepted, each taken at most once (`stored_derived`).

Parts are chosen as a sublist of the accepted ones, so a part that arrived twice can be taken twice.
Where two choices are added, what is in both of them cancels (`exists_sublist_combined`); this is all
that a reduction does, because taking a subset out is the symmetric difference.
-/

namespace UrReplay.Fountain

open scoped symmDiff

/-- The symmetric difference of the index sets of parts. -/
def combinedIndexes (parts : List Part) : Finset Nat :=
  (parts.map fun part => part.indexes.toFinset).foldr (· ∆ ·) ∅

/-- The exclusive or of the data of parts, which has length `len`. -/
def combinedData (len : Nat) (parts : List Part) : Bytes :=
  Bytes.xorAll len (parts.map Part.data)

/-- Some of the parts, each taken at most once, have these indexes as the symmetric difference of
theirs and this data as the exclusive or of theirs. The data of all parts has length `len`. -/
def Derived (parts : List Part) (len : Nat) (indexes : Finset Nat) (data : Bytes) : Prop :=
  ∃ chosen, chosen.Sublist parts ∧ combinedIndexes chosen = indexes ∧
    combinedData len chosen = data

theorem combinedIndexes_cons (part : Part) (parts : List Part) :
    combinedIndexes (part :: parts) = part.indexes.toFinset ∆ combinedIndexes parts := rfl

theorem combinedData_cons (len : Nat) (part : Part) (parts : List Part) :
    combinedData len (part :: parts) = part.data.xor (combinedData len parts) := rfl

theorem length_combinedData {len : Nat} {parts : List Part}
    (h : ∀ part ∈ parts, part.data.length = len) : (combinedData len parts).length = len := by
  refine Bytes.length_xorAll ?_
  intro a ha
  obtain ⟨part, hpart, rfl⟩ := List.mem_map.1 ha
  exact h part hpart

/-- Two choices add up to a choice. -/
theorem exists_sublist_combined {len : Nat} {parts s t : List Part}
    (hlen : ∀ part ∈ parts, part.data.length = len) (hs : s.Sublist parts) (ht : t.Sublist parts) :
    ∃ u, u.Sublist parts ∧ combinedIndexes u = combinedIndexes s ∆ combinedIndexes t ∧
      combinedData len u = (combinedData len s).xor (combinedData len t) := by
  induction parts generalizing s t with
  | nil =>
    obtain rfl := List.sublist_nil.1 hs
    obtain rfl := List.sublist_nil.1 ht
    refine ⟨[], List.Sublist.refl _, (symmDiff_self _).symm, ?_⟩
    rw [Bytes.xor_self, length_combinedData (by simp)]
    rfl
  | cons part parts ih =>
    obtain ⟨hpart, hlen⟩ := List.forall_mem_cons.1 hlen
    cases hs with
    | cons _ hs =>
      cases ht with
      | cons _ ht =>
        obtain ⟨u, hu, hindexes, hdata⟩ := ih hlen hs ht
        exact ⟨u, hu.cons _, hindexes, hdata⟩
      | @cons_cons t _ _ ht =>
        obtain ⟨u, hu, hindexes, hdata⟩ := ih hlen hs ht
        refine ⟨part :: u, hu.cons_cons _, ?_, ?_⟩
        · rw [combinedIndexes_cons, hindexes, combinedIndexes_cons, symmDiff_left_comm]
        · rw [combinedData_cons, hdata, combinedData_cons, Bytes.xor_left_comm]
    | @cons_cons s _ _ hs =>
      cases ht with
      | cons _ ht =>
        obtain ⟨u, hu, hindexes, hdata⟩ := ih hlen hs ht
        refine ⟨part :: u, hu.cons_cons _, ?_, ?_⟩
        · rw [combinedIndexes_cons, hindexes, combinedIndexes_cons, symmDiff_assoc]
        · rw [combinedData_cons, hdata, combinedData_cons, Bytes.xor_assoc]
      | @cons_cons t _ _ ht =>
        -- The part is in both choices, so it is in neither the sum of the indexes nor of the data.
        obtain ⟨u, hu, hindexes, hdata⟩ := ih hlen hs ht
        refine ⟨u, hu.cons _, ?_, ?_⟩
        · rw [hindexes, combinedIndexes_cons, combinedIndexes_cons, symmDiff_symmDiff_symmDiff_comm,
            symmDiff_self, bot_symmDiff]
        · have hlength : (combinedData len s).length = part.data.length :=
            (length_combinedData fun p hp => hlen p (hs.subset hp)).trans hpart.symm
          rw [hdata, combinedData_cons, combinedData_cons, Bytes.xor_xor_xor_cancel _ hlength]

/-- A mix is derived from parts whose data all has length `len`. -/
def Mix.DerivedFrom (parts : List Part) (len : Nat) (m : Mix) : Prop :=
  Derived parts len m.support m.data

namespace Mix

theorem DerivedFrom.append {parts : List Part} {len : Nat} {m : Mix} (h : m.DerivedFrom parts len)
    (more : List Part) : m.DerivedFrom (parts ++ more) len := by
  obtain ⟨chosen, hchosen, hsum⟩ := h
  exact ⟨chosen, hchosen.trans (List.sublist_append_left _ _), hsum⟩

/-- An accepted part is derived from itself. -/
theorem derivedFrom_mix (before : List Part) (part : Part) :
    part.mix.DerivedFrom (before ++ [part]) part.data.length := by
  refine ⟨[part], List.sublist_append_right _ _, ?_, Bytes.xorAll_singleton rfl⟩
  rw [combinedIndexes_cons]
  exact symmDiff_bot _

theorem reductionClosed_derivedFrom {parts : List Part} {len : Nat}
    (hlen : ∀ part ∈ parts, part.data.length = len) :
    ReductionClosed (DerivedFrom parts len) := by
  intro m other hm hother h
  obtain ⟨s, hs, hmsupport, hmdata⟩ := hm
  obtain ⟨t, ht, hosupport, hodata⟩ := hother
  obtain ⟨u, hu, hindexes, hdata⟩ := exists_sublist_combined hlen hs ht
  have hlength {chosen : List Part} (hchosen : chosen.Sublist parts) :
      (combinedData len chosen).length = len :=
    length_combinedData fun part hpart => hlen part (hchosen.subset hpart)
  have hsame : m.data.length = other.data.length := by
    rw [← hmdata, ← hodata, hlength hs, hlength ht]
  -- Taking a subset out is the symmetric difference, so a reduction is a sum of choices.
  refine ⟨u, hu, ?_, ?_⟩
  · rw [hindexes, hmsupport, hosupport, support_reduceBy_of_ssubset h, symmDiff_of_ge h.1]
  · rw [hdata, hmdata, hodata, reduceBy_of_ssubset h, Bytes.xorInto_of_length_le hsame.le]

end Mix

namespace Decoder

/-- Everything stored is derived from the accepted parts. -/
theorem derivedFrom_of_stores {parts : List Part} {len : Nat}
    (hlen : ∀ part ∈ empty.accepted parts, part.data.length = len) {x : Mix}
    (hx : (empty.receiveAll parts).Stores x) : x.DerivedFrom (empty.accepted parts) len := by
  refine run_induction (motive := fun accepted d =>
    (∀ part ∈ accepted, part.data.length = len) →
      ∀ x, d.Stores x → x.DerivedFrom accepted len) parts ?_ ?_ hlen x hx
  · intro _ x hx
    exact absurd hx not_stores_empty
  · intro before d part d' _ hbefore hreceive hlen x hx
    refine stores_receive hreceive (Mix.reductionClosed_derivedFrom hlen) ?_ ?_ x hx
    · intro y hy
      exact (hbefore (fun p hp => hlen p (by simp [hp])) y hy).append [part]
    · rw [← hlen part (by simp)]
      exact Mix.derivedFrom_mix before part

/-- If the accepted parts are sums of a table of fragments, then so is everything stored. -/
theorem encodes_of_stores {parts : List Part} {table : Nat → Bytes} {len : Nat}
    (h : ∀ part ∈ empty.accepted parts, part.mix.Encodes table len) {x : Mix}
    (hx : (empty.receiveAll parts).Stores x) : x.Encodes table len := by
  refine run_induction (motive := fun accepted d =>
    (∀ part ∈ accepted, part.mix.Encodes table len) → ∀ x, d.Stores x → x.Encodes table len)
    parts ?_ ?_ h x hx
  · intro _ x hx
    exact absurd hx not_stores_empty
  · intro before d part d' _ hbefore hreceive hencodes x hx
    refine stores_receive hreceive (Mix.reductionClosed_encodes table len) ?_ ?_ x hx
    · intro y hy
      exact hbefore (fun p hp => hencodes p (by simp [hp])) y hy
    · exact hencodes part (by simp)

/-- Reductions never invent data. Every recovered fragment and every held mix is derived from the
accepted parts, whose data has one length; so if these are sums of a table of fragments, a recovered
fragment is the one of the table, and a held mix is the sum of those it mixes. -/
theorem stored_derived (parts : List Part) :
    let d := empty.receiveAll parts
    let accepted := empty.accepted parts
    (∃ len, (∀ part ∈ accepted, part.data.length = len) ∧
        (∀ i data, d.recovered[i]? = some data → Derived accepted len {i} data) ∧
        ∀ m ∈ d.held, Derived accepted len m.support m.data) ∧
      ∀ (table : Nat → Bytes) (len : Nat),
        (∀ part ∈ accepted, ∀ i ∈ part.indexes, (table i).length = len) →
        (∀ part ∈ accepted, part.data = Mix.sumOver table len part.indexes) →
        (∀ i data, d.recovered[i]? = some data → data = table i) ∧
          ∀ m ∈ d.held, m.data = Mix.sumOver table len m.indexes := by
  intro d accepted
  refine ⟨?_, ?_⟩
  · obtain ⟨len, hlen⟩ := exists_length_of_accepted parts
    have hderived (x : Mix) (hx : d.Stores x) : x.DerivedFrom accepted len :=
      derivedFrom_of_stores hlen hx
    refine ⟨len, hlen, ?_, fun m hm => hderived m (.held hm)⟩
    intro i data h
    have hfragment := hderived _ (.recovered h)
    rwa [Mix.DerivedFrom, Mix.support_ofFragment] at hfragment
  · intro table len hlen hdata
    have hencodes (x : Mix) (hx : d.Stores x) : x.Encodes table len := by
      refine encodes_of_stores (fun part hpart => ⟨?_, hdata part hpart⟩) hx
      intro i hi
      exact hlen part hpart i (Part.mem_support_mix.1 hi)
    exact ⟨fun i data h => Mix.encodes_ofFragment (hencodes _ (.recovered h)),
      fun m hm => (hencodes m (.held hm)).data⟩

/-- Two parts of one fragment each, which are what they are in a table. -/
theorem stored_derived_two_fragments :
    let parts : List Part := [⟨1, 2, 2, 0, [0x2a]⟩, ⟨2, 2, 2, 0, [0x17]⟩]
    let table : Nat → Bytes := fun i => if i = 0 then [0x2a] else [0x17]
    (∀ part ∈ empty.accepted parts, ∀ i ∈ part.indexes, (table i).length = 1) ∧
      (∀ part ∈ empty.accepted parts, part.data = Mix.sumOver table 1 part.indexes) ∧
      ∀ i data, (empty.receiveAll parts).recovered[i]? = some data → data = table i := by
  intro parts table
  have hlen : ∀ part ∈ empty.accepted parts, ∀ i ∈ part.indexes, (table i).length = 1 := by
    intro part _ i _
    simp only [table]
    split <;> rfl
  have hdata : ∀ part ∈ empty.accepted parts, part.data = Mix.sumOver table 1 part.indexes := by
    decide +kernel
  exact ⟨hlen, hdata, ((stored_derived parts).2 table 1 hlen hdata).1⟩

end Decoder

end UrReplay.Fountain
