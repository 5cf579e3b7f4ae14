import UrReplay.Proofs.Fountain.Invariant
/-!
# UrReplay.Proofs.Fountain.FullStore

What a mix does that there is no room for. It is taken out of the held mixes before it is known whether
there is room, because that may make some. If it does not, then no held mix has come down to a fragment
or to another one, and the held mixes are reduced where they stand (`process_dropped`): those that
strictly contain what is dropped lose it, and all others stay as they are. So it is not true that a
dropped mix leaves the held ones alone (`dropped_reduces`).
-/

namespace UrReplay.Fountain.Decoder

variable {d : Decoder} {t : Transfer} {m new : Mix}

/-- The mix is dropped for want of room: it is of two or more fragments, which are not held together already,
it does not come down to one fragment, and taking it out of the held mixes leaves as many of them as there
may be. -/
structure Dropped (d : Decoder) (m : Mix) : Prop where
  mixed : 2 ≤ m.indexes.card
  new : ∀ x ∈ d.held, x.indexes ≠ m.indexes
  unresolved : (d.reduced m).isSingle = false
  full : maxHeld ≤ (d.reduceHeld (d.reduced m)).held.length

theorem Dropped.support_nonempty (h : Dropped d m) : (d.reduced m).support.Nonempty := by
  have hm : m.support.Nonempty := Finset.card_pos.1 (m.card_support ▸ Nat.zero_lt_of_lt h.mixed)
  rw [reduced, withoutRecovered_eq]
  exact Mix.support_foldl_reduceBy_nonempty (Mix.support_foldl_reduceBy_nonempty hm _) _

theorem process_of_dropped (h : Dropped d m) (t : Transfer) :
    d.process t m = d.reduceHeld (d.reduced m) := by
  have hnew : ¬(d.held.any (·.indexes = m.indexes)) = true := by
    rw [List.any_eq_true]
    rintro ⟨x, hx, hxm⟩
    exact h.new x hx (by simpa using hxm)
  have hmixed : m.isSingle = false := by
    rw [Mix.isSingle_eq_false_iff, Mix.card_support]
    exact (Nat.lt_of_succ_le h.mixed).ne'
  rw [process, Mix.single?_eq_none_iff.2 hmixed]
  dsimp only
  rw [addMix, if_neg hnew]
  dsimp only
  rw [← reduced, h.unresolved, if_neg Bool.false_ne_true, hold, if_neg (Nat.not_lt.2 h.full)]

/-- If a reduction leaves as many mixes as before, none has come down to a fragment or to another one. -/
theorem reduceHeld_of_full (h : d.held.length ≤ (d.reduceHeld new).held.length) :
    (∀ x ∈ d.held, (x.reduceBy new).isSingle = false) ∧
      d.reduceHeld new = { d with held := d.held.map (·.reduceBy new) } := by
  have hcollect : (d.reduceHeld new).held.length ≤ _ :=
    Mix.length_collect_le ((d.held.map (·.reduceBy new)).filter (!·.isSingle))
  have hlength : (d.held.map (·.reduceBy new)).length = d.held.length := List.length_map _
  have hkept : (d.held.map (·.reduceBy new)).filter (!·.isSingle) = d.held.map (·.reduceBy new) := by
    refine List.filter_sublist.eq_of_length_le ?_
    omega
  have hmixed : ∀ x ∈ d.held.map (·.reduceBy new), x.isSingle = false := by
    intro x hx
    simpa using List.filter_eq_self.1 hkept x hx
  refine ⟨fun x hx => hmixed _ (List.mem_map_of_mem hx), ?_⟩
  have hsingles : (d.held.map (·.reduceBy new)).filter (·.isSingle) = [] := by
    rw [List.filter_eq_nil_iff]
    intro x hx
    rw [hmixed x hx]
    exact Bool.false_ne_true
  rw [reduceHeld] at h ⊢
  dsimp only at h ⊢
  rw [hkept] at h ⊢
  rw [hsingles, List.append_nil, Mix.collect_of_le_length (hlength.trans_le h)]

/-- A mix that is dropped for want of room changes nothing but the held mixes, and takes none of them away:
those that strictly contain what it has come down to lose these fragments and keep at least two, and all
others stay as they are. So the held mixes stay the same if and only if none of them strictly contains it. -/
theorem process_dropped (d : Decoder) (t : Transfer) (m : Mix) (hfull : d.held.length = 256)
    (h : Dropped d m) :
    d.process t m = { d with held := d.held.map (·.reduceBy (d.reduced m)) } ∧
      (∀ x ∈ d.held, ¬(d.reduced m).support ⊂ x.support → x.reduceBy (d.reduced m) = x) ∧
      (∀ x ∈ d.held, (d.reduced m).support ⊂ x.support →
        (x.reduceBy (d.reduced m)).support = x.support \ (d.reduced m).support ∧
          (x.reduceBy (d.reduced m)).data = x.data.xorInto (d.reduced m).data ∧
          2 ≤ (x.reduceBy (d.reduced m)).indexes.card) ∧
      ((d.process t m).held = d.held ↔ ∀ x ∈ d.held, ¬(d.reduced m).support ⊂ x.support) := by
  obtain ⟨hmixed, hreduce⟩ := reduceHeld_of_full (hfull.trans_le h.full)
  have hprocess := (process_of_dropped h t).trans hreduce
  refine ⟨hprocess, fun _ _ => Mix.reduceBy_of_not_ssubset, ?_, ?_⟩
  · intro x hx hlt
    have hsupport := Mix.support_reduceBy_of_ssubset hlt
    refine ⟨hsupport, by rw [Mix.reduceBy_of_ssubset hlt], ?_⟩
    have hpos := (Mix.support_reduceBy_nonempty (h.support_nonempty.mono hlt.1) (d.reduced m)).card_pos
    have hne := Mix.isSingle_eq_false_iff.1 (hmixed x hx)
    rw [← Mix.card_support]
    omega
  · have hmap : d.held.map (·.reduceBy (d.reduced m)) = d.held ↔
        ∀ x ∈ d.held, x.reduceBy (d.reduced m) = x := by
      simpa using List.map_eq_map_iff (l := d.held) (f := (·.reduceBy (d.reduced m))) (g := id)
    rw [hprocess]
    dsimp only
    rw [hmap]
    exact forall₂_congr fun x _ => Mix.reduceBy_eq_self_iff h.support_nonempty

/-! ### A full store -/

/-- A mix of two neighbours, after the first four fragments. -/
def neighbours (i : Nat) : Mix := ⟨⟨[2 * i + 4, 2 * i + 5], by simp⟩, [0x17]⟩

/-- Neighbours differ from each other and from what there is among the first four fragments. -/
theorem nodup_neighbours (n : Nat) {m : Mix} (hm : ∀ i ∈ m.indexes, i < 4) :
    ((m :: (List.range n).map neighbours).map Mix.indexes).Nodup := by
  rw [List.map_cons, List.map_map, List.nodup_cons]
  refine ⟨?_, List.Nodup.map ?_ List.nodup_range⟩
  · rw [List.mem_map]
    rintro ⟨i, -, hi⟩
    have hmem : 2 * i + 4 ∈ m.indexes := by
      rw [← hi]
      exact List.mem_cons_self
    have := hm _ hmem
    omega
  · intro i j hij
    have hhead := (List.cons.inj (congrArg IndexSet.toList hij)).1
    omega

/-- A transfer of which 256 mixes are held: one of four fragments, and the others of two neighbours each. -/
def crowded : Decoder :=
  { ofTransfer ⟨514, 514, 0, 1⟩ with
    held := ⟨⟨[0, 1, 2, 3], by decide⟩, [0x2a]⟩ :: (List.range 255).map neighbours }

theorem length_held_crowded : crowded.held.length = 256 := by
  rw [crowded, List.length_cons, List.length_map, List.length_range]

theorem coherent_crowded : Coherent crowded := by
  refine coherent_holding (by decide) ?_ (nodup_neighbours 255 (by decide)) length_held_crowded.le
  refine List.forall_mem_cons.2 ⟨⟨by decide, by decide, rfl⟩, List.forall_mem_map.2 ?_⟩
  intro i hi
  refine ⟨Nat.le_refl 2, ?_, rfl⟩
  intro j hj
  have hi := List.mem_range.1 hi
  have hj : j = 2 * i + 4 ∨ j = 2 * i + 5 := by simpa [neighbours, IndexSet.mem_def] using hj
  show j < 514
  omega

/-- Two of the four fragments that are held together. -/
def half : Mix := ⟨⟨[0, 1], by decide⟩, [0x3d]⟩

theorem reduced_half : crowded.reduced half = half := by decide +kernel

/-- The other two of the four fragments are left, and all neighbours. -/
theorem held_reduceHeld_half :
    (crowded.reduceHeld half).held =
      ⟨⟨[2, 3], by decide⟩, [0x17]⟩ :: (List.range 255).map neighbours := by
  have hmixed : (crowded.held.map (·.reduceBy half)).filter (!·.isSingle) =
      ⟨⟨[2, 3], by decide⟩, [0x17]⟩ :: (List.range 255).map neighbours := by decide +kernel
  rw [reduceHeld, hmixed, Mix.collect_of_nodup (nodup_neighbours 255 (by decide))]

theorem dropped_half : Dropped crowded half where
  mixed := by decide
  new := by decide +kernel
  unresolved := by
    rw [reduced_half]
    decide
  full := by
    rw [reduced_half, held_reduceHeld_half, List.length_cons, List.length_map, List.length_range]
    exact Nat.le_refl 256

/-- The full store, and a mix that is dropped. -/
theorem process_dropped_half :
    crowded.held.length = 256 ∧ Dropped crowded half ∧
      crowded.process ⟨514, 514, 0, 1⟩ half =
        { crowded with held := crowded.held.map (·.reduceBy half) } := by
  obtain ⟨hprocess, -⟩ := process_dropped crowded ⟨514, 514, 0, 1⟩ half length_held_crowded dropped_half
  rw [reduced_half] at hprocess
  exact ⟨length_held_crowded, dropped_half, hprocess⟩

/-- Not every mix that is dropped leaves the held ones as they are. -/
theorem dropped_reduces :
    ¬∀ (d : Decoder) (t : Transfer) (m : Mix), Coherent d → d.transfer = some t →
      d.held.length = 256 → m.Within t.seqLen t.fragmentLen → Dropped d m →
      (d.process t m).held = d.held := by
  intro hall
  have hwithin : half.Within 514 1 := ⟨by decide, rfl⟩
  have hsame := hall crowded ⟨514, 514, 0, 1⟩ half coherent_crowded rfl length_held_crowded hwithin
    dropped_half
  rw [process_of_dropped dropped_half, reduced_half, held_reduceHeld_half] at hsame
  exact absurd (List.cons.inj hsame).1 (by decide)

end UrReplay.Fountain.Decoder
