import UrReplay.Proofs.Fountain.Feed
/-!
# UrReplay.Proofs.Fountain.Peeling

A decoder recovers whatever plain peeling recovers from the accepted parts, as long as it does not
run out of room (`peeling_complete`).

The parts themselves are gone: what is held has been reduced and merged. But the unknown indexes of
every mix that was fed stay a disjoint union of index sets that are held or queued, less what is
known. `Tiled` is such a union, `tiles` are the sets to choose from, and every step replaces a tile by
a union of new ones (`tiled_processed`). When the loop is done, a tile is a held mix, so it has not
one member, and no union of tiles has (`Tiled.card_ne_one_of_forall`).

There is room for a mix because each one that is held comes from a fed one of its own
(`mixedCount_processed_le`).
-/

namespace UrReplay.Fountain

/-! ### Disjoint unions -/

/-- A union of disjoint sets from a collection. -/
inductive Tiled (tiles : Set (Finset Nat)) : Finset Nat → Prop
  | empty : Tiled tiles ∅
  | union {s u : Finset Nat} (hs : s ∈ tiles) (hdisjoint : Disjoint s u) (hu : Tiled tiles u) :
      Tiled tiles (s ∪ u)

namespace Tiled

variable {tiles tiles' : Set (Finset Nat)} {s u v : Finset Nat}

theorem of_mem (hs : s ∈ tiles) : Tiled tiles s := by
  have hunion := union hs (Finset.disjoint_empty_right s) empty
  rwa [Finset.union_empty] at hunion

theorem disjUnion (hu : Tiled tiles u) (hv : Tiled tiles v) (hdisjoint : Disjoint u v) :
    Tiled tiles (u ∪ v) := by
  induction hu with
  | empty => rwa [Finset.empty_union]
  | @union s u hs hsu _ ih =>
      rw [Finset.disjoint_union_left] at hdisjoint
      rw [Finset.union_assoc]
      exact union hs (Finset.disjoint_union_right.2 ⟨hsu, hdisjoint.1⟩) (ih hdisjoint.2)

/-- A set that is taken out of every tile is taken out of their union. -/
theorem sdiff (htiles : ∀ s ∈ tiles, Tiled tiles' (s \ v)) (hu : Tiled tiles u) :
    Tiled tiles' (u \ v) := by
  induction hu with
  | empty =>
      rw [Finset.empty_sdiff]
      exact empty
  | @union s u hs hsu _ ih =>
      rw [Finset.union_sdiff_distrib]
      exact disjUnion (htiles s hs) ih
        (Finset.disjoint_of_subset_left Finset.sdiff_subset
          (Finset.disjoint_of_subset_right Finset.sdiff_subset hsu))

/-- Every tile may be cut into smaller ones. -/
theorem refine (htiles : ∀ s ∈ tiles, Tiled tiles' s) (hu : Tiled tiles u) : Tiled tiles' u := by
  have hsdiff := sdiff (v := ∅) (fun s hs => by rw [Finset.sdiff_empty]; exact htiles s hs) hu
  rwa [Finset.sdiff_empty] at hsdiff

theorem card_ne_one_of_forall (htiles : ∀ s ∈ tiles, s.card ≠ 1) (hu : Tiled tiles u) :
    u.card ≠ 1 := by
  induction hu with
  | empty => simp
  | @union s u hs hsu _ ih =>
      have := htiles s hs
      rw [Finset.card_union_of_disjoint hsu]
      omega

theorem card_ne_one (htiles : ∀ s ∈ tiles, 2 ≤ s.card) (hu : Tiled tiles u) : u.card ≠ 1 :=
  hu.card_ne_one_of_forall fun s hs => Nat.ne_of_gt (htiles s hs)

end Tiled

/-! ### Plain peeling -/

namespace Mix

/-- The index sets that plain peeling recovers from mixes: starting from nothing, a mix with one
unknown index gives that index. -/
inductive Peels (ms : List Mix) : Finset Nat → Prop
  | start : Peels ms ∅
  | solve {known : Finset Nat} {m : Mix} {i : Nat} (h : Peels ms known) (hm : m ∈ ms)
      (hi : m.support \ known = {i}) : Peels ms (insert i known)

/-- Where no mix has exactly one unknown index, plain peeling has nothing to add. -/
theorem Peels.subset {ms : List Mix} {known all : Finset Nat} (h : Peels ms known)
    (hall : ∀ m ∈ ms, (m.support \ all).card ≠ 1) : known ⊆ all := by
  induction h with
  | start => exact Finset.empty_subset all
  | @solve known m i _ hm hi ih =>
      -- Were `i` missing, it would be the only unknown index of the mix.
      have hsub : m.support \ all ⊆ {i} := by
        rw [← hi]
        exact Finset.sdiff_subset_sdiff (Finset.Subset.refl _) ih
      refine Finset.insert_subset ?_ ih
      by_contra hiall
      have hmem : i ∈ m.support \ known := by
        rw [hi]
        exact Finset.mem_singleton_self i
      have hself := Finset.mem_sdiff.2 ⟨(Finset.mem_sdiff.1 hmem).1, hiall⟩
      refine hall m hm ?_
      rw [Finset.Subset.antisymm hsub (Finset.singleton_subset_iff.2 hself),
        Finset.card_singleton]

end Mix

namespace Decoder

/-! ### Tiles -/

/-- The unknown indexes of the mixes that are held or queued. -/
def tiles (d : Decoder) : Set (Finset Nat) :=
  {s | ∃ m, (m ∈ d.held ∨ m ∈ d.queue) ∧ m.support \ d.known = s}

theorem mem_tiles_of_held {d : Decoder} {m : Mix} (h : m ∈ d.held) :
    m.support \ d.known ∈ d.tiles := ⟨m, Or.inl h, rfl⟩

theorem mem_tiles_of_queue {d : Decoder} {m : Mix} (h : m ∈ d.queue) :
    m.support \ d.known ∈ d.tiles := ⟨m, Or.inr h, rfl⟩

/-- Cutting the tiles of a decoder comes down to cutting those of the held mixes, of the queued
ones, and of the one that is processed. -/
theorem forall_mem_tiles {d : Decoder} {m : Mix} {P : Finset Nat → Prop}
    (hm : P (m.support \ d.known)) (hheld : ∀ x ∈ d.held, P (x.support \ d.known))
    (hqueue : ∀ x ∈ d.queue, P (x.support \ d.known)) :
    ∀ s ∈ { d with queue := m :: d.queue : Decoder }.tiles, P s := by
  intro s h
  rcases h with ⟨x, hx | hx, rfl⟩
  · exact hheld x hx
  · rcases List.mem_cons.1 hx with rfl | hx
    · exact hm
    · exact hqueue x hx

/-- What a mix loses to held ones is a union of tiles. -/
theorem tiled_of_foldl {tiles : Set (Finset Nat)} {known : Finset Nat} {others : List Mix}
    (hothers : ∀ o ∈ others, Tiled tiles (o.support \ known)) (c : Mix)
    (h : Tiled tiles ((others.foldl Mix.reduceBy c).support \ known)) :
    Tiled tiles (c.support \ known) := by
  induction others generalizing c with
  | nil => exact h
  | cons o others ih =>
    obtain ⟨ho, hothers⟩ := List.forall_mem_cons.1 hothers
    have hreduced := ih hothers _ h
    by_cases hoc : o.support ⊂ c.support
    · rw [Mix.support_reduceBy_of_ssubset hoc] at hreduced
      have hsplit : c.support \ known = o.support \ known ∪ (c.support \ o.support) \ known := by
        rw [← Finset.union_sdiff_distrib, Finset.union_sdiff_of_subset hoc.1]
      rw [hsplit]
      -- What is taken out and what is left have no index in common.
      refine ho.disjUnion hreduced ?_
      exact Finset.disjoint_of_subset_left Finset.sdiff_subset
        (Finset.disjoint_of_subset_right Finset.sdiff_subset Finset.disjoint_sdiff)
    · rwa [Mix.reduceBy_of_not_ssubset hoc] at hreduced

/-- The unknown indexes of a mix are those of the reduced one and tiles of held ones. -/
theorem tiled_of_reduced {d : Decoder} {tiles : Set (Finset Nat)} {m : Mix}
    (hheld : ∀ x ∈ d.held, Tiled tiles (x.support \ d.known))
    (hreduced : (d.reduced m).support \ d.known ∈ tiles) : Tiled tiles (m.support \ d.known) := by
  obtain ⟨hsub, hknown, -⟩ := withoutRecovered_spec d m
  have heq : m.support \ d.known = (d.withoutRecovered m).support \ d.known := by
    refine Finset.Subset.antisymm ?_ (Finset.sdiff_subset_sdiff hsub (le_refl _))
    intro i hi
    obtain ⟨him, hid⟩ := Finset.mem_sdiff.1 hi
    refine Finset.mem_sdiff.2 ⟨by_contra fun hir => hid ?_, hid⟩
    exact hknown (Finset.mem_sdiff.2 ⟨him, hir⟩)
  rw [heq]
  exact tiled_of_foldl hheld _ (Tiled.of_mem hreduced)

/-- What becomes of a held mix when a reduced one comes to be held. -/
theorem exists_mem_kept {d : Decoder} {x : Mix} (hx : x ∈ d.held) (r : Mix) :
    ∃ y, (y ∈ ((d.reduceHeld r).hold r).held ∨ y ∈ ((d.reduceHeld r).hold r).queue) ∧
      y.support = (x.reduceBy r).support := by
  obtain ⟨y, hy, hyx⟩ := exists_mem_reduceHeld hx r
  rw [queue_hold]
  rcases hy with hy | hy
  · unfold hold
    split
    · obtain ⟨z, hz, hzy⟩ := Mix.exists_mem_upsert (m := r) hy
      exact ⟨z, Or.inl hz, hzy.trans hyx⟩
    · exact ⟨y, Or.inl hy, hyx⟩
  · exact ⟨y, Or.inr hy, hyx⟩

theorem mem_held_hold_self {d : Decoder} (hroom : d.held.length < maxHeld) (m : Mix) :
    m ∈ (d.hold m).held := by
  rw [hold, if_pos hroom]
  exact Mix.mem_upsert_self m d.held

/-- A recovered fragment is taken out of every tile. -/
theorem tiled_fragment {d : Decoder} {i : Nat} {data : Bytes}
    (hmixed : ∀ x ∈ d.held, x.isSingle = false) {u : Finset Nat}
    (hu : Tiled { d with queue := .ofFragment i data :: d.queue : Decoder }.tiles (u \ d.known)) :
    Tiled ((d.withFragment i data).reduceHeld (.ofFragment i data)).tiles
      (u \ insert i d.known) := by
  have hknown : ((d.withFragment i data).reduceHeld (.ofFragment i data)).known =
      insert i d.known := by
    rw [known_reduceHeld, known_withFragment]
  have hout (s : Finset Nat) : s \ insert i d.known = (s \ d.known) \ {i} := by
    ext j
    simp only [Finset.mem_sdiff, Finset.mem_insert, Finset.mem_singleton]
    tauto
  rw [hout]
  refine hu.sdiff (forall_mem_tiles ?_ ?_ ?_)
  · rw [Mix.support_ofFragment, sdiff_right_comm, Finset.sdiff_self, Finset.empty_sdiff]
    exact .empty
  · intro x hx
    obtain ⟨y, hy, hyx⟩ := exists_mem_reduceHeld (d := d.withFragment i data) hx
      (.ofFragment i data)
    rw [Mix.support_reduceBy_ofFragment (Mix.isSingle_eq_false_iff.1 (hmixed x hx))] at hyx
    refine .of_mem ⟨y, hy, ?_⟩
    rw [hknown, hyx]
    ext j
    simp only [Finset.mem_sdiff, Finset.mem_insert, Finset.mem_singleton]
    tauto
  · intro x hx
    refine .of_mem ⟨x, Or.inr (mem_queue_reduceHeld.2 (Or.inl hx)), ?_⟩
    rw [hknown, hout]

/-- A mix that comes to be held cuts the held ones that contain it. -/
theorem tiled_kept {d : Decoder} {m : Mix} (hroom : d.held.length < maxHeld) {u : Finset Nat}
    (hu : Tiled { d with queue := m :: d.queue : Decoder }.tiles (u \ d.known)) :
    Tiled ((d.reduceHeld (d.reduced m)).hold (d.reduced m)).tiles (u \ d.known) := by
  have hknown : ((d.reduceHeld (d.reduced m)).hold (d.reduced m)).known = d.known := by
    rw [known_hold, known_reduceHeld]
  have hnew : (d.reduced m).support \ d.known ∈
      ((d.reduceHeld (d.reduced m)).hold (d.reduced m)).tiles := by
    refine ⟨d.reduced m, Or.inl (mem_held_hold_self ?_ _), by rw [hknown]⟩
    exact (length_held_reduceHeld_le _ _).trans_lt hroom
  have hheld (x : Mix) (hx : x ∈ d.held) :
      Tiled ((d.reduceHeld (d.reduced m)).hold (d.reduced m)).tiles (x.support \ d.known) := by
    obtain ⟨y, hy, hyx⟩ := exists_mem_kept hx (d.reduced m)
    have htile : (x.reduceBy (d.reduced m)).support \ d.known ∈
        ((d.reduceHeld (d.reduced m)).hold (d.reduced m)).tiles :=
      ⟨y, hy, by rw [hknown, hyx]⟩
    have hothers : ∀ o ∈ [d.reduced m], Tiled ((d.reduceHeld (d.reduced m)).hold
        (d.reduced m)).tiles (o.support \ d.known) := by
      intro o ho
      rw [List.mem_singleton.1 ho]
      exact .of_mem hnew
    exact tiled_of_foldl hothers x (.of_mem htile)
  refine hu.refine (forall_mem_tiles ?_ hheld (fun x hx => .of_mem ⟨x, Or.inr ?_, by rw [hknown]⟩))
  · exact tiled_of_reduced hheld hnew
  · rw [queue_hold]
    exact mem_queue_reduceHeld.2 (Or.inl hx)

/-- A step keeps the unknown indexes of a part a disjoint union of tiles, if a mix that comes to be
held finds room. -/
theorem tiled_processed {t : Transfer} {d d' : Decoder} {m : Mix}
    (hmixed : ∀ x ∈ d.held, x.isSingle = false) (hd' : Processed d t m d')
    (hroom : m.isSingle = false → d.held.length < maxHeld) (hrunning : d'.outcome = none)
    {u : Finset Nat} (hu : Tiled { d with queue := m :: d.queue : Decoder }.tiles (u \ d.known)) :
    Tiled d'.tiles (u \ d'.known) := by
  cases hd' with
  | @known i hsingle hi =>
      -- The tile of the mix is empty, and all others stay.
      refine hu.refine (forall_mem_tiles ?_ (fun x hx => .of_mem (mem_tiles_of_held hx))
        (fun x hx => .of_mem (mem_tiles_of_queue hx)))
      rw [hsingle, Mix.support_ofFragment,
        Finset.sdiff_eq_empty_iff_subset.2 (Finset.singleton_subset_iff.2 hi)]
      exact .empty
  | last _ _ _ => exact absurd hrunning (by simp [finish])
  | @fragment i hsingle hi hsize =>
      rw [known_reduceHeld, known_withFragment]
      rw [hsingle] at hu
      exact tiled_fragment hmixed hu
  | @repeated _ x hx hxm =>
      -- The held mix has the same tile.
      refine hu.refine (forall_mem_tiles ?_ (fun x hx => .of_mem (mem_tiles_of_held hx))
        (fun x hx => .of_mem (mem_tiles_of_queue hx)))
      rw [← hxm]
      exact .of_mem (mem_tiles_of_held hx)
  | resolved _ _ =>
      -- The reduced mix is queued in place of the mix.
      refine hu.refine (forall_mem_tiles (d := d) ?_ (fun x hx => .of_mem ⟨x, Or.inl hx, rfl⟩)
        (fun x hx => .of_mem ⟨x, Or.inr (List.mem_append_left _ hx), rfl⟩))
      exact tiled_of_reduced (fun x hx => .of_mem ⟨x, Or.inl hx, rfl⟩)
        ⟨d.reduced m, Or.inr (List.mem_append_right _ (List.mem_singleton_self _)), rfl⟩
  | kept hmixed' _ =>
      rw [known_hold, known_reduceHeld]
      exact tiled_kept (hroom hmixed') hu

/-! ### Room for mixes -/

/-- The number of mixes of two or more fragments that are held or queued. -/
def mixedCount (d : Decoder) : Nat := d.held.length + d.queue.countP (!·.isSingle)

theorem length_held_le_mixedCount (d : Decoder) : d.held.length ≤ d.mixedCount :=
  Nat.le_add_right _ _

theorem mixedCount_cons (d : Decoder) (m : Mix) :
    { d with queue := m :: d.queue : Decoder }.mixedCount =
      d.mixedCount + if m.isSingle then 0 else 1 := by
  cases hsingle : m.isSingle <;> simp [mixedCount, hsingle, Nat.add_assoc]

theorem mixedCount_append (d : Decoder) (m : Mix) :
    { d with queue := d.queue ++ [m] : Decoder }.mixedCount =
      d.mixedCount + if m.isSingle then 0 else 1 := by
  cases hsingle : m.isSingle <;>
    simp [mixedCount, List.countP_append, hsingle, Nat.add_assoc]

theorem mixedCount_reduceHeld_le (d : Decoder) (new : Mix) :
    (d.reduceHeld new).mixedCount ≤ d.mixedCount := by
  rw [mixedCount, mixedCount, countP_queue_reduceHeld]
  exact Nat.add_le_add_right (length_held_reduceHeld_le d new) _

theorem mixedCount_hold_le (d : Decoder) (m : Mix) : (d.hold m).mixedCount ≤ d.mixedCount + 1 := by
  have hlength : (d.hold m).held.length ≤ d.held.length + 1 := by
    unfold hold
    split
    · exact Mix.length_upsert_le m d.held
    · exact Nat.le_succ _
  rw [mixedCount, mixedCount, queue_hold]
  omega

/-- A step makes no mix of two or more fragments but from the one that it processes. -/
theorem mixedCount_processed_le {t : Transfer} {d d' : Decoder} {m : Mix}
    (h : Processed d t m d') :
    d'.mixedCount ≤ { d with queue := m :: d.queue : Decoder }.mixedCount := by
  rw [mixedCount_cons]
  cases h with
  | known _ _ => exact Nat.le_add_right _ _
  | last _ _ _ => exact (length_held_le_mixedCount d).trans (Nat.le_add_right _ _)
  | @fragment i _ _ _ =>
      have hreduce := mixedCount_reduceHeld_le (d.withFragment i m.data) (.ofFragment i m.data)
      exact hreduce.trans (Nat.le_add_right d.mixedCount _)
  | repeated _ _ _ => exact Nat.le_add_right _ _
  | resolved _ hsingle =>
      rw [mixedCount_append, hsingle]
      exact Nat.le_add_right _ _
  | kept hmixed _ =>
      have hreduce := mixedCount_reduceHeld_le d (d.reduced m)
      have hhold := mixedCount_hold_le (d.reduceHeld (d.reduced m)) (d.reduced m)
      rw [hmixed, if_neg Bool.false_ne_true]
      omega

/-! ### Feeding -/

theorem countP_concat_mixed (ms : List Mix) (m : Mix) :
    (ms ++ [m]).countP (!·.isSingle) = ms.countP (!·.isSingle) + if m.isSingle then 0 else 1 := by
  cases hsingle : m.isSingle <;> simp [List.countP_append, hsingle]

/-- The loop keeps what is unknown of an index set a disjoint union of tiles, if there is room for all
mixes. -/
theorem Running.tiled_settle {t : Transfer} {d : Decoder} (h : Running t d)
    (hroom : d.mixedCount ≤ maxHeld) :
    (d.settle t).mixedCount ≤ d.mixedCount ∧ ∀ u, Tiled d.tiles (u \ d.known) →
      (d.settle t).outcome = none → Tiled (d.settle t).tiles (u \ (d.settle t).known) := by
  refine (h.settle_induction
    (motive := fun d' => d'.mixedCount ≤ d.mixedCount ∧ ∀ u, Tiled d.tiles (u \ d.known) →
      d'.outcome = none → Tiled d'.tiles (u \ d'.known))
    ⟨le_refl _, fun _ hu _ => hu⟩ ?_).1
  intro d₁ m d₂ hrunning _ hprocessed h
  obtain ⟨hcount, htiled⟩ := h
  refine ⟨(mixedCount_processed_le hprocessed).trans hcount, ?_⟩
  intro u hu hrunning'
  refine tiled_processed hrunning.mixed hprocessed ?_ hrunning' (htiled u hu hrunning.outcome)
  intro hmixed
  rw [mixedCount_cons, hmixed, if_neg Bool.false_ne_true] at hcount
  have := length_held_le_mixedCount d₁
  omega

/-- A mix that is fed keeps what is unknown of an index set a disjoint union of tiles, and its own
index set is one as well. -/
theorem Running.tiled_feed {t : Transfer} {d : Decoder} {m : Mix} (h : Running t d)
    (hm : m.Within t.seqLen t.fragmentLen)
    (hroom : (d.mixedCount + if m.isSingle then 0 else 1) ≤ maxHeld) :
    (d.feed t m).mixedCount ≤ (d.mixedCount + if m.isSingle then 0 else 1) ∧
      ∀ u, Tiled d.tiles (u \ d.known) ∨ u = m.support → (d.feed t m).outcome = none →
        Tiled (d.feed t m).tiles (u \ (d.feed t m).known) := by
  rw [← mixedCount_append] at hroom ⊢
  rw [h.feed_eq]
  obtain ⟨hcount, htiled⟩ := (h.with_mix hm).tiled_settle hroom
  refine ⟨hcount, fun u hu => htiled u ?_⟩
  rcases hu with hu | rfl
  · refine hu.refine ?_
    intro s hs
    obtain ⟨x, hx, hxs⟩ := hs
    exact .of_mem ⟨x, hx.imp_right (List.mem_append_left _), hxs⟩
  · exact .of_mem ⟨m, Or.inr (List.mem_append_right _ (List.mem_singleton_self m)), rfl⟩

/-- After mixes of which few are of two or more fragments, what is unknown of each of them is a
disjoint union of tiles. -/
theorem tiled_feedAll {t : Transfer} {ms : List Mix} (hpos : 0 < t.seqLen)
    (hms : ∀ m ∈ ms, m.Within t.seqLen t.fragmentLen)
    (hfew : ms.countP (!·.isSingle) ≤ maxHeld)
    (hrunning : ((ofTransfer t).feedAll t ms).outcome = none) :
    ∀ m ∈ ms, Tiled ((ofTransfer t).feedAll t ms).tiles
      (m.support \ ((ofTransfer t).feedAll t ms).known) := by
  refine (feedAll_induction (motive := fun before d => before.countP (!·.isSingle) ≤ maxHeld →
    Paused t d ∧ d.mixedCount ≤ before.countP (!·.isSingle) ∧
      (d.outcome = none → ∀ x ∈ before, Tiled d.tiles (x.support \ d.known)))
    ms (fun _ => ⟨.running (running_ofTransfer hpos) rfl, Nat.zero_le _,
      fun _ x hx => absurd hx List.not_mem_nil⟩) ?_ hfew).2.2 hrunning
  intro before d m hm hbefore hfew
  rw [countP_concat_mixed] at hfew ⊢
  obtain ⟨hpaused, hcount, htiled⟩ := hbefore ((Nat.le_add_right _ _).trans hfew)
  refine ⟨hpaused.feed (hms m hm), ?_⟩
  cases hpaused with
  | running h _ =>
      obtain ⟨hcount', htiled'⟩ :=
        h.tiled_feed (hms m hm) ((Nat.add_le_add_right hcount _).trans hfew)
      refine ⟨hcount'.trans (Nat.add_le_add_right hcount _), fun hrunning x hx => ?_⟩
      rcases List.mem_append.1 hx with hx | hx
      · exact htiled' x.support (Or.inl (htiled h.outcome x hx)) hrunning
      · exact htiled' x.support (Or.inr (by rw [List.mem_singleton.1 hx])) hrunning
  | finished h =>
      rw [h.feed_eq, h.outcome]
      exact ⟨hcount.trans (Nat.le_add_right _ _), fun h => absurd h (Option.some_ne_none _)⟩

/-- A running transfer with nothing queued has no tile of one member. -/
theorem Running.card_tile_ne_one {t : Transfer} {d : Decoder} (h : Running t d)
    (hqueue : d.queue = []) : ∀ s ∈ d.tiles, s.card ≠ 1 := by
  intro s hs
  obtain ⟨m, hm, rfl⟩ := hs
  rw [hqueue] at hm
  have hm := hm.resolve_right List.not_mem_nil
  rw [Finset.sdiff_eq_self_of_disjoint (h.unknown m hm)]
  exact Mix.isSingle_eq_false_iff.1 (h.mixed m hm)

/-- No mix that was fed has exactly one unknown index. -/
theorem card_sdiff_known_feedAll_ne_one {t : Transfer} {ms : List Mix} (hpos : 0 < t.seqLen)
    (hms : ∀ m ∈ ms, m.Within t.seqLen t.fragmentLen)
    (hfew : ms.countP (!·.isSingle) ≤ maxHeld) :
    ∀ m ∈ ms, (m.support \ ((ofTransfer t).feedAll t ms).known).card ≠ 1 := by
  intro m hm
  cases paused_feedAll hpos hms with
  | running h hqueue =>
      exact (tiled_feedAll hpos hms hfew h.outcome m hm).card_ne_one_of_forall
        (h.card_tile_ne_one hqueue)
  | finished h =>
      have hsub : m.support ⊆ Finset.range t.seqLen :=
        fun i hi => Finset.mem_range.2 ((hms m hm).lt i hi)
      rw [h.known_eq, Finset.sdiff_eq_empty_iff_subset.2 hsub]
      simp

/-! ### Receiving -/

/-- After any sequence of parts with few mixed ones, the unknown indexes of every accepted part are
a disjoint union of tiles. -/
theorem tiled_receiveAll {parts : List Part} (hparts : ∀ part ∈ parts, 1 ≤ part.messageLen)
    (hfew : (empty.accepted parts).countP (2 ≤ ·.indexes.card) ≤ maxHeld)
    (hrunning : (empty.receiveAll parts).outcome = none) :
    ∀ part ∈ empty.accepted parts, Tiled (empty.receiveAll parts).tiles
      (part.indexes.toFinset \ (empty.receiveAll parts).known) := by
  intro part hpart
  have ht := transfer_of_mem_accepted hpart
  obtain ⟨received, hfed⟩ := receiveAll_eq_feedAll ht
  have hflaw (p : Part) (hp : p ∈ empty.accepted parts) : p.flaw? = none ∧ 1 ≤ p.messageLen :=
    ⟨flaw?_of_mem_accepted hp, hparts p (mem_of_mem_accepted hp)⟩
  rw [hfed] at hrunning ⊢
  refine tiled_feedAll (Part.seqLen_pos (hflaw part hpart).1 (hflaw part hpart).2)
    (List.forall_mem_map.2 ?_) ?_ hrunning part.mix (List.mem_map_of_mem hpart)
  · intro p hp
    have htransfer := Option.some.inj (ht.symm.trans (transfer_of_mem_accepted hp))
    rw [htransfer]
    exact Part.within_mix (hflaw p hp).1 (hflaw p hp).2
  · rw [List.countP_map]
    refine (List.countP_mono_left ?_).trans hfew
    intro p hp hmixed
    have hpos := (Part.support_mix_nonempty (hflaw p hp).1 (hflaw p hp).2).card_pos
    have hne : p.mix.support.card ≠ 1 := Mix.isSingle_eq_false_iff.1 (by simpa using hmixed)
    rw [Mix.card_support] at hpos hne
    exact decide_eq_true (Nat.lt_of_le_of_ne hpos hne.symm)

/-- Between calls, a tile has two or more members. -/
theorem Settled.two_le_card_tile {d : Decoder} (hd : Settled d) (hrunning : d.outcome = none) :
    ∀ s ∈ d.tiles, 2 ≤ s.card := by
  intro s hs
  cases hd with
  | fresh =>
      obtain ⟨m, hm, -⟩ := hs
      exact absurd hm (by simp [empty])
  | running h hqueue hmixes =>
      have hne := h.card_tile_ne_one hqueue s hs
      obtain ⟨m, hm, rfl⟩ := hs
      rw [hqueue] at hm
      have hm := hm.resolve_right List.not_mem_nil
      have hpos := (hmixes m (.held hm)).card_pos
      rw [Finset.sdiff_eq_self_of_disjoint (h.unknown m hm)] at hne ⊢
      omega
  | finished h _ =>
      rw [h.outcome] at hrunning
      exact absurd hrunning (by simp)

/-- In the end, no index of an accepted part is unknown. -/
theorem Finished.sdiff_known_eq_empty {parts : List Part} {t : Transfer}
    (hparts : ∀ part ∈ parts, 1 ≤ part.messageLen) (h : Finished t (empty.receiveAll parts))
    {part : Part} (hpart : part ∈ empty.accepted parts) :
    part.indexes.toFinset \ (empty.receiveAll parts).known = ∅ := by
  have htransfer := transfer_of_mem_accepted hpart
  rw [h.transfer] at htransfer
  obtain rfl := Option.some.inj htransfer
  have hflaw := flaw?_of_mem_accepted hpart
  have hwithin := Part.within_mix hflaw (hparts part (mem_of_mem_accepted hpart))
  rw [h.known_eq, Finset.sdiff_eq_empty_iff_subset]
  exact fun i hi => Finset.mem_range.2 (hwithin.lt i hi)

/-- The index sets that plain peeling recovers from parts: starting from nothing, a part with one
unknown index gives that index. -/
inductive Peels (parts : List Part) : Finset Nat → Prop
  | start : Peels parts ∅
  | solve {known : Finset Nat} {part : Part} {i : Nat} (h : Peels parts known)
      (hpart : part ∈ parts) (hi : part.indexes.toFinset \ known = {i}) :
      Peels parts (insert i known)

/-- Peeling parts is peeling their mixes. -/
theorem Peels.mixes {parts : List Part} {known : Finset Nat} (h : Peels parts known) :
    Mix.Peels (parts.map Part.mix) known := by
  induction h with
  | start => exact .start
  | solve _ hpart hi ih => exact .solve ih (List.mem_map_of_mem hpart) hi

/-- Where no part has exactly one unknown index, plain peeling has nothing to add. -/
theorem Peels.subset {parts : List Part} {known all : Finset Nat} (h : Peels parts known)
    (hall : ∀ part ∈ parts, (part.indexes.toFinset \ all).card ≠ 1) : known ⊆ all :=
  h.mixes.subset (List.forall_mem_map.2 hall)

/-- A decoder peels completely. If at most as many parts with two or more indexes are accepted as
there is room for, then no accepted part ever has exactly one unknown index. So everything is known
that plain peeling recovers from the accepted parts, and the transfer has ended if this is every
index. -/
theorem peeling_complete (parts : List Part) (hparts : ∀ part ∈ parts, 1 ≤ part.messageLen)
    (hfew : (empty.accepted parts).countP (2 ≤ ·.indexes.card) ≤ 256) :
    let d := empty.receiveAll parts
    let accepted := empty.accepted parts
    (∀ part ∈ accepted, (part.indexes.toFinset \ d.recovered.keys.toFinset).card ≠ 1) ∧
      (∀ peeled, Peels accepted peeled → ∀ i ∈ peeled, i ∈ d.recovered) ∧
      ∀ seqLen peeled, d.seqLen? = some seqLen → Peels accepted peeled →
        Finset.range seqLen ⊆ peeled → d.isComplete = true := by
  intro d accepted
  have hsettled : Settled d := settled_receiveAll hparts
  have hstuck : ∀ part ∈ accepted, (part.indexes.toFinset \ d.known).card ≠ 1 := by
    intro part hpart
    cases houtcome : d.outcome with
    | none =>
        exact (tiled_receiveAll hparts hfew houtcome part hpart).card_ne_one
          (hsettled.two_le_card_tile houtcome)
    | some outcome =>
        have hcomplete : d.isComplete = true := by rw [isComplete, houtcome]; rfl
        obtain ⟨first, -, -, hfinished⟩ := exists_finished hparts hcomplete
        rw [hfinished.sdiff_known_eq_empty hparts hpart]
        simp
  refine ⟨hstuck, ?_, ?_⟩
  · intro peeled hpeeled i hi
    exact mem_known.1 (hpeeled.subset hstuck hi)
  · intro seqLen peeled hseq hpeeled hfull
    exact hsettled.isComplete_of_full hseq (hfull.trans (hpeeled.subset hstuck))

/-- Two fragments of three, and a part that mixes some. -/
theorem peeling_complete_three_parts :
    let parts : List Part := [⟨1, 3, 3, 7, [0x2a]⟩, ⟨2, 3, 3, 7, [0x17]⟩, ⟨5, 3, 3, 7, [0x3d]⟩]
    (∀ part ∈ parts, 1 ≤ part.messageLen) ∧
      (empty.accepted parts).countP (2 ≤ ·.indexes.card) ≤ 256 ∧
      ∀ part ∈ empty.accepted parts, (part.indexes.toFinset \
        (empty.receiveAll parts).recovered.keys.toFinset).card ≠ 1 := by
  intro parts
  have hparts : ∀ part ∈ parts, 1 ≤ part.messageLen := by decide
  have hlength : (empty.accepted parts).length ≤ 3 := (accepted_sublist empty parts).length_le
  have hfew : (empty.accepted parts).countP (2 ≤ ·.indexes.card) ≤ 256 :=
    List.countP_le_length.trans (hlength.trans (by decide))
  exact ⟨hparts, hfew, (peeling_complete parts hparts hfew).1⟩

end Decoder

end UrReplay.Fountain
