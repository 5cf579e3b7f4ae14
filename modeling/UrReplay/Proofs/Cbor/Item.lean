import UrReplay.Cbor.Item
import UrReplay.Proofs.Cbor.Head
/-!
# UrReplay.Proofs.Cbor.Item

Items are self-delimiting: what a reader takes off the front of the bytes decides what it makes of
them, whatever follows (`selfDelimiting_read`). The readers are chains of smaller ones, and a chain of
self-delimiting readers is self-delimiting (`SelfDelimiting.bind`).

* Readers that repeat another one have fuel for as many rounds as there are bytes. A round takes one
  byte at least, so the bytes that were taken are fuel enough (`takes_round`). What the rounds of a
  string of indefinite length may be is said once (`Chunked`), and the reader is that relation
  (`chunked_of_readChunks`, `takes_of_chunked`).
* Whether a tag makes a big number is seen from the head behind it (`readBigNumber?_eq_none`).
* Nothing is made out of nothing: an item is no larger than what was read for it. Sizes are passed
  along a chain, and each reader in it has to take bytes only for what is left to account for.
-/

namespace UrReplay

namespace Cbor

variable {α β : Type} {size : α → Nat} {size' : β → Nat} {read : Bytes → Option (α × Bytes)}
  {major : Major} {reader : Reader} {fuel depth n : Nat} {s rest : Bytes}

/-! ### Self-delimiting readers -/

/-- A reader takes `used` off the front of any bytes that begin with it, and makes `a` of it. -/
def Takes (read : Bytes → Option (α × Bytes)) (used : Bytes) (a : α) : Prop :=
  ∀ rest, read (used ++ rest) = some (a, rest)

/-- A reader takes what it reads off the front, as it does whatever follows, and takes no fewer bytes
than the size of what it makes of them. -/
def SelfDelimiting (size : α → Nat) (read : Bytes → Option (α × Bytes)) : Prop :=
  ∀ s a rest, read s = some (a, rest) →
    ∃ used, s = used ++ rest ∧ size a ≤ used.length ∧ Takes read used a

theorem Takes.bind {used used' : Bytes} {a : α} {b : β} {f : α × Bytes → Option (β × Bytes)}
    (h : Takes read used a) (h' : Takes (fun s => f (a, s)) used' b) :
    Takes (fun s => read s >>= f) (used ++ used') b := by
  intro rest
  show (read (used ++ used' ++ rest)).bind f = _
  rw [List.append_assoc, h, Option.bind_some]
  exact h' rest

namespace SelfDelimiting

theorem bind {f : α × Bytes → Option (β × Bytes)} (hread : SelfDelimiting size read)
    (hnext : ∀ a, SelfDelimiting (fun b => size' b - size a) (fun s => f (a, s))) :
    SelfDelimiting size' (fun s => read s >>= f) := by
  intro s b rest h
  obtain ⟨⟨a, s'⟩, hs, hs'⟩ := Option.bind_eq_some_iff.1 h
  obtain ⟨used, rfl, hsize, htakes⟩ := hread s a s' hs
  obtain ⟨used', rfl, hsize', htakes'⟩ := hnext a s' b rest hs'
  refine ⟨used ++ used', (List.append_assoc _ _ _).symm, ?_, htakes.bind htakes'⟩
  rw [List.length_append]
  exact (Nat.sub_le_iff_le_add'.1 hsize').trans (Nat.add_le_add_right hsize _)

/-- Judging something that was read takes no bytes. -/
theorem bind_option {γ : Type} {x : Option γ} {f : γ → Bytes → Option (α × Bytes)}
    (h : ∀ c, x = some c → SelfDelimiting size (f c)) :
    SelfDelimiting size (fun s => x >>= fun c => f c s) := by
  cases x with
  | none => exact fun _ _ _ h => nomatch h
  | some c => exact h c rfl

theorem pure {a : α} (h : size a = 0) : SelfDelimiting size (fun s => some (a, s)) := by
  intro s a' rest heq
  obtain ⟨rfl, rfl⟩ := Prod.mk.inj (Option.some.inj heq)
  exact ⟨[], rfl, h.le, fun rest => rfl⟩

theorem fail : SelfDelimiting size (fun _ => none) := fun _ _ _ h => nomatch h

end SelfDelimiting

/-! ### Heads and strings -/

theorem selfDelimiting_cut (n : Nat) : SelfDelimiting List.length (Bytes.cut? n) := by
  intro s a rest h
  obtain ⟨rfl, rfl⟩ := Bytes.cut?_eq_some_iff.1 h
  exact ⟨a, rfl, le_rfl, Bytes.cut?_append a⟩

/-- Bytes that a head is read from. -/
def Spells (front : Bytes) (head : Head) : Prop := 1 ≤ front.length ∧ Takes Head.read front head

theorem exists_spells {head : Head} (h : Head.read s = some (head, rest)) :
    ∃ front, s = front ++ rest ∧ Spells front head := by
  cases s with
  | nil => exact absurd h (by simp [Head.read])
  | cons b s =>
    simp only [Head.read] at h
    by_cases hlow : b.toNat % 32 < 24
    · rw [if_pos hlow] at h
      obtain ⟨rfl, rfl⟩ := Prod.mk.inj (Option.some.inj h)
      exact ⟨[b], rfl, le_rfl, fun t => by simp [Head.read, hlow]⟩
    · rw [if_neg hlow] at h
      by_cases hwide : b.toNat % 32 < 28
      · rw [if_pos hwide] at h
        obtain ⟨⟨argument, s'⟩, hcut, heq⟩ := Option.map_eq_some_iff.1 h
        obtain ⟨rfl, rfl⟩ := Prod.mk.inj heq
        obtain ⟨rfl, hlength⟩ := Bytes.cut?_eq_some_iff.1 hcut
        refine ⟨b :: argument, rfl, Nat.succ_pos _, fun t => ?_⟩
        simp only [List.cons_append, Head.read, if_neg hlow, if_pos hwide, ← hlength,
          Bytes.cut?_append, Option.map_some]
      · rw [if_neg hwide] at h
        by_cases hindefinite : b.toNat % 32 = 31
        · rw [if_pos hindefinite] at h
          obtain ⟨rfl, rfl⟩ := Prod.mk.inj (Option.some.inj h)
          exact ⟨[b], rfl, le_rfl, fun t => by simp [Head.read, hindefinite]⟩
        · rw [if_neg hindefinite] at h
          exact absurd h (by simp)

theorem selfDelimiting_head : SelfDelimiting (fun _ => 1) Head.read := fun _ _ _ => exists_spells

/-! ### Readers with fuel -/

/-- A reader with fuel takes what it reads off the front, as it does whatever follows and with any fuel
that is no less than the bytes it takes. -/
def Fueled (size : α → Nat) (read : Nat → Bytes → Option (α × Bytes)) : Prop :=
  ∀ fuel s a rest, read fuel s = some (a, rest) →
    ∃ used, s = used ++ rest ∧ size a ≤ used.length ∧
      ∀ fuel', used.length ≤ fuel' → Takes (read fuel') used a

/-- With fuel for every byte, a reader is self-delimiting. -/
theorem Fueled.selfDelimiting {read : Nat → Bytes → Option (α × Bytes)} (h : Fueled size read) :
    SelfDelimiting size (fun s => read (s.length + 1) s) := by
  intro s a rest hread
  obtain ⟨used, rfl, hsize, htakes⟩ := h _ s a rest hread
  refine ⟨used, rfl, hsize, fun t => htakes _ ?_ t⟩
  rw [List.length_append]
  omega

/-- A round that takes a byte leaves enough fuel for the bytes after its own. -/
theorem takes_round (read : Nat → Bytes → Option (α × Bytes)) {front used : Bytes} {a : α}
    (hpos : 1 ≤ front.length)
    (h : ∀ fuel, used.length ≤ fuel → ∀ rest, read (fuel + 1) (front ++ (used ++ rest)) = some (a, rest))
    (fuel : Nat) (hfuel : (front ++ used).length ≤ fuel) : Takes (read fuel) (front ++ used) a := by
  rw [List.length_append] at hfuel
  obtain ⟨fuel, rfl⟩ := Nat.exists_eq_add_of_le' (hpos.trans (Nat.le_of_add_right_le hfuel))
  intro rest
  rw [List.append_assoc]
  exact h fuel (by omega) rest

/-! ### Chunks -/

/-- Bytes that hold the chunks of a string of indefinite length, up to its end, when `depth` strings are
open. -/
inductive Chunked (major : Major) : (depth : Nat) → Bytes → List Bytes → Prop
  | chunk {depth width : Nat} {front chunk used : Bytes} {chunks : List Bytes} :
      Spells front (.definite major width chunk.length) → Chunked major depth used chunks →
      Chunked major depth (front ++ (chunk ++ used)) (chunk :: chunks)
  /-- Another string is opened. -/
  | opened {depth : Nat} {front used : Bytes} {chunks : List Bytes} :
      Spells front (.indefinite major) → Chunked major (depth + 1) used chunks →
      Chunked major depth (front ++ used) chunks
  /-- One of many open strings ends. -/
  | closed {depth : Nat} {front used : Bytes} {chunks : List Bytes} : major ≠ .special →
      Spells front (.indefinite .special) → Chunked major (depth + 1) used chunks →
      Chunked major (depth + 2) (front ++ used) chunks
  /-- The outermost string ends. -/
  | ended {depth : Nat} {front : Bytes} : major ≠ .special → depth < 2 →
      Spells front (.indefinite .special) → Chunked major depth (front ++ []) []

/-- One for each byte in the chunks of a string, and one for its end. -/
def sizeOfChunks (chunks : List Bytes) : Nat := chunks.flatten.length + 1

theorem sizeOfChunks_le {used : Bytes} {chunks : List Bytes} (h : Chunked major depth used chunks) :
    sizeOfChunks chunks ≤ used.length := by
  induction h with
  | chunk _ _ ih =>
    simp only [sizeOfChunks, List.flatten_cons, List.length_append] at ih ⊢
    omega
  | opened _ _ ih =>
    rw [List.length_append]
    omega
  | closed _ _ _ ih =>
    rw [List.length_append]
    omega
  | ended _ _ hfront =>
    rw [List.append_nil]
    exact hfront.1

/-- Chunks are read back, with fuel for each byte. -/
theorem takes_of_chunked {used : Bytes} {chunks : List Bytes} (h : Chunked major depth used chunks) :
    ∀ fuel, used.length ≤ fuel → Takes (readChunks major fuel depth) used chunks := by
  induction h with
  | chunk hfront _ ih =>
    refine takes_round (readChunks major · _) hfront.1 fun fuel hfuel t => ?_
    rw [List.length_append] at hfuel
    simp only [List.append_assoc, readChunks, hfront.2 _, if_pos, Bytes.cut?_append,
      ih fuel (by omega) t, Option.bind_eq_bind, Option.bind_some]
  | opened hfront _ ih =>
    refine takes_round (readChunks major · _) hfront.1 fun fuel hfuel t => ?_
    simp only [readChunks, hfront.2 _, if_pos, ih fuel hfuel t]
  | closed hmajor hfront _ ih =>
    refine takes_round (readChunks major · _) hfront.1 fun fuel hfuel t => ?_
    simp only [readChunks, hfront.2 _, if_neg hmajor.symm, if_pos, ih fuel hfuel t]
  | @ended depth _ hmajor hdepth hfront =>
    refine takes_round (readChunks major · _) hfront.1 fun fuel _ t => ?_
    obtain rfl | rfl : depth = 0 ∨ depth = 1 := by omega
    · simp only [List.nil_append, readChunks, hfront.2 _, if_neg hmajor.symm, if_pos]
    · simp only [List.nil_append, readChunks, hfront.2 _, if_neg hmajor.symm, if_pos]

/-- What is read is chunks, and nothing else. -/
theorem chunked_of_readChunks {chunks : List Bytes}
    (h : readChunks major fuel depth s = some (chunks, rest)) :
    ∃ used, s = used ++ rest ∧ Chunked major depth used chunks := by
  induction fuel generalizing depth s chunks with
  | zero => exact absurd h (by simp [readChunks])
  | succ fuel ih =>
    rw [readChunks] at h
    split at h
    · rename_i m width n s' hhead
      obtain ⟨front, rfl, hfront⟩ := exists_spells hhead
      split at h
      · rename_i hm
        obtain ⟨⟨chunk, s''⟩, hcut, h⟩ := Option.bind_eq_some_iff.1 h
        obtain ⟨⟨chunks', rest'⟩, hchunks, h⟩ := Option.bind_eq_some_iff.1 h
        obtain ⟨rfl, rfl⟩ := Prod.mk.inj (Option.some.inj h)
        obtain ⟨rfl, rfl⟩ := Bytes.cut?_eq_some_iff.1 hcut
        obtain ⟨used, rfl, hused⟩ := ih hchunks
        exact ⟨_, by simp only [List.append_assoc], .chunk (hm ▸ hfront) hused⟩
      · exact absurd h (by simp)
    · rename_i m s' hhead
      obtain ⟨front, rfl, hfront⟩ := exists_spells hhead
      split at h
      · rename_i hm
        obtain ⟨used, rfl, hused⟩ := ih h
        exact ⟨_, (List.append_assoc _ _ _).symm, .opened (hm ▸ hfront) hused⟩
      · rename_i hm
        split at h
        · rename_i hspecial
          subst hspecial
          split at h
          · obtain ⟨used, rfl, hused⟩ := ih h
            exact ⟨_, (List.append_assoc _ _ _).symm, .closed (Ne.symm hm) hfront hused⟩
          · rename_i hdepth
            obtain ⟨rfl, rfl⟩ := Prod.mk.inj (Option.some.inj h)
            have hlow : depth < 2 := by
              by_contra hge
              exact hdepth (depth - 2) (by omega)
            exact ⟨_, by rw [List.append_nil], .ended (Ne.symm hm) hlow hfront⟩
        · exact absurd h (by simp)
    · exact absurd h (by simp)

theorem fueled_readChunks (major : Major) (depth : Nat) :
    Fueled sizeOfChunks (fun fuel => readChunks major fuel depth) := by
  intro fuel s chunks rest h
  obtain ⟨used, hs, hused⟩ := chunked_of_readChunks h
  exact ⟨used, hs, sizeOfChunks_le hused, takes_of_chunked hused⟩

/-! ### Items -/

mutual

/-- One for an item itself, and one for each byte and item in it. What is in a map or under a tag is
not counted. -/
def Item.size : Item → Nat
  | .bytes b => b.length + 1
  | .array items => sizeOfAll items + 1
  | _ => 1

/-- The size of many items together. -/
def sizeOfAll : List Item → Nat
  | [] => 0
  | item :: items => item.size + sizeOfAll items

end

theorem Item.size_pos (item : Item) : 1 ≤ item.size := by
  cases item <;> exact Nat.succ_pos _

theorem selfDelimiting_readMany (h : SelfDelimiting Item.size reader) (n : Nat) :
    SelfDelimiting sizeOfAll (readMany reader n) := by
  induction n with
  | zero => exact SelfDelimiting.pure rfl
  | succ n ih =>
    have hitems (item : Item) :
        SelfDelimiting (fun items => sizeOfAll items - item.size) (fun s =>
          readMany reader n s >>= fun x => some (item :: x.1, x.2)) := by
      refine ih.bind fun items => ?_
      refine SelfDelimiting.pure (a := item :: items) ?_
      simp only [sizeOfAll]
      omega
    exact h.bind hitems

theorem fueled_readUntilBreak (h : SelfDelimiting Item.size reader) :
    Fueled (fun items => sizeOfAll items + 1) (readUntilBreak reader) := by
  intro fuel
  induction fuel with
  | zero => exact fun _ _ _ hread => absurd hread (by simp [readUntilBreak])
  | succ fuel ih =>
    intro s items rest hread
    cases s with
    | nil => exact absurd hread (by simp [readUntilBreak])
    | cons b s =>
      rw [readUntilBreak] at hread
      by_cases hbreak : b = breakByte
      · rw [if_pos hbreak] at hread
        obtain ⟨rfl, rfl⟩ := Prod.mk.inj (Option.some.inj hread)
        refine ⟨[b] ++ [], rfl, le_rfl, takes_round _ le_rfl fun fuel' _ t => ?_⟩
        show readUntilBreak reader (fuel' + 1) (b :: t) = _
        rw [readUntilBreak, if_pos hbreak]
      · rw [if_neg hbreak] at hread
        obtain ⟨⟨item, s'⟩, hitem, hread⟩ := Option.bind_eq_some_iff.1 hread
        obtain ⟨⟨items', rest'⟩, hitems, hread⟩ := Option.bind_eq_some_iff.1 hread
        obtain ⟨rfl, rfl⟩ := Prod.mk.inj (Option.some.inj hread)
        obtain ⟨front, hs, hsize, hfront⟩ := h _ _ _ hitem
        obtain ⟨used, rfl, hsizes, htakes⟩ := ih _ _ _ hitems
        have hpos : 1 ≤ front.length := item.size_pos.trans hsize
        -- The item begins with the byte that was looked at.
        obtain ⟨front, rfl⟩ : ∃ front', front = b :: front' := by
          cases front with
          | nil => exact absurd hpos (by decide)
          | cons b' front' =>
              rw [List.cons_append, List.cons.injEq] at hs
              exact ⟨front', by rw [hs.1]⟩
        refine ⟨b :: front ++ used, by rw [hs, List.append_assoc], ?_, ?_⟩
        · simp only [sizeOfAll, List.length_append] at hsizes ⊢
          omega
        · refine takes_round _ hpos fun fuel' hfuel t => ?_
          have hitem := hfront (used ++ t)
          rw [List.cons_append] at hitem ⊢
          simp only [readUntilBreak, if_neg hbreak, hitem, htakes fuel' hfuel t, Option.bind_eq_bind,
            Option.bind_some]

/-! ### Big numbers -/

/-- Whether a tag makes a big number of what is behind it depends on the head there alone. -/
theorem readBigNumber?_eq_none {head : Head} {s' rest' : Bytes} (h : Head.read s = some (head, rest))
    (h' : Head.read s' = some (head, rest')) (hnone : readBigNumber? n s = none) :
    readBigNumber? n s' = none := by
  unfold readBigNumber? at hnone ⊢
  rw [h] at hnone
  rw [h']
  split at hnone <;> simp_all

theorem readBigNumber?_takes {item : Item} (h : readBigNumber? n s = some (some (item, rest))) :
    ∃ used, s = used ++ rest ∧ item.size = 1 ∧
      ∀ t, readBigNumber? n (used ++ t) = some (some (item, t)) := by
  unfold readBigNumber? at h
  split at h
  · rename_i width k s' hhead
    obtain ⟨front, rfl, -, hfront⟩ := exists_spells hhead
    split at h
    · rename_i hk
      obtain ⟨⟨digits, s''⟩, hcut, heq⟩ := Option.map_eq_some_iff.1 (Option.some.inj h)
      obtain ⟨rfl, rfl⟩ := Prod.mk.inj heq
      obtain ⟨rfl, rfl⟩ := Bytes.cut?_eq_some_iff.1 hcut
      refine ⟨front ++ digits, by rw [List.append_assoc], rfl, fun t => ?_⟩
      simp only [List.append_assoc, readBigNumber?, hfront _, if_pos hk, Bytes.cut?_append,
        Option.map_some]
    · exact absurd h (by simp)
  · rename_i width k s' hhead
    obtain ⟨front, rfl, -, hfront⟩ := exists_spells hhead
    split at h
    · rename_i hk
      obtain ⟨⟨digits, s''⟩, hcut, heq⟩ := Option.bind_eq_some_iff.1 (Option.some.inj h)
      obtain ⟨rfl, rfl⟩ := Bytes.cut?_eq_some_iff.1 hcut
      dsimp only at heq
      split at heq
      · rename_i hsmall
        obtain ⟨rfl, rfl⟩ := Prod.mk.inj (Option.some.inj heq)
        refine ⟨front ++ digits, by rw [List.append_assoc], rfl, fun t => ?_⟩
        simp only [List.append_assoc, readBigNumber?, hfront _, if_pos hk, Bytes.cut?_append,
          Option.bind_eq_bind, Option.bind_some, if_pos hsmall]
      · exact absurd heq (by simp)
    · exact absurd h (by simp)
  · exact absurd h (by simp)

/-! ### Items of any depth -/

/-- What is relied on of a reader of items: it is self-delimiting, and a head comes first. -/
structure ReadsItems (reader : Reader) : Prop where
  selfDelimiting : SelfDelimiting Item.size reader
  head : ∀ s x, reader s = some x → ∃ head rest, Head.read s = some (head, rest)

theorem selfDelimiting_tag {inner : Option Reader} (h : ∀ reader ∈ inner, ReadsItems reader)
    (n : Nat) :
    SelfDelimiting (fun item : Item => item.size - 1) (fun s =>
      match readBigNumber? n s with
      | some number => number
      | none => do
        let (item, rest) ← (← inner) s
        some (.tag n item, rest)) := by
  intro s item rest hread
  cases hbig : readBigNumber? n s with
  | some number =>
      simp only [hbig] at hread
      rw [hread] at hbig
      obtain ⟨used, rfl, hsize, htakes⟩ := readBigNumber?_takes hbig
      refine ⟨used, rfl, by simp only [hsize]; omega, fun t => ?_⟩
      simp only [htakes]
  | none =>
      simp only [hbig] at hread
      obtain ⟨reader, hreader, hread⟩ := Option.bind_eq_some_iff.1 hread
      obtain ⟨⟨item', rest'⟩, hitem, hread⟩ := Option.bind_eq_some_iff.1 hread
      obtain ⟨rfl, rfl⟩ := Prod.mk.inj (Option.some.inj hread)
      obtain ⟨used, rfl, hsize, htakes⟩ := (h reader hreader).selfDelimiting _ _ _ hitem
      refine ⟨used, rfl, Nat.zero_le _, fun t => ?_⟩
      -- The head behind the tag is among the bytes that the item takes.
      have hused := htakes []
      rw [List.append_nil] at hused
      obtain ⟨head, rest'', hhead⟩ := (h reader hreader).head _ _ hused
      obtain ⟨front, rfl, -, hfront⟩ := exists_spells hhead
      have hfront (t : Bytes) : Head.read (front ++ rest'' ++ t) = some (head, rest'' ++ t) := by
        rw [List.append_assoc]
        exact hfront (rest'' ++ t)
      simp only [readBigNumber?_eq_none (hfront _) (hfront t) hbig, hreader, htakes t,
        Option.bind_eq_bind, Option.bind_some]

theorem selfDelimiting_readWith {inner : Option Reader}
    (h : ∀ reader ∈ inner, ReadsItems reader) : SelfDelimiting Item.size (readWith inner) := by
  refine selfDelimiting_head.bind fun head => ?_
  cases head with
  | definite major width n =>
    cases major with
    | unsigned => exact SelfDelimiting.pure rfl
    | negative => exact SelfDelimiting.pure rfl
    | bytes => exact (selfDelimiting_cut n).bind fun b => SelfDelimiting.pure (Nat.sub_self b.length)
    | text =>
      refine (selfDelimiting_cut n).bind fun b => ?_
      exact SelfDelimiting.bind_option fun t _ => SelfDelimiting.pure (Nat.zero_sub b.length)
    | array =>
      refine SelfDelimiting.bind_option fun reader hreader => ?_
      have hitems := selfDelimiting_readMany (h reader hreader).selfDelimiting n
      exact hitems.bind fun items => SelfDelimiting.pure (Nat.sub_self (sizeOfAll items))
    | map =>
      refine SelfDelimiting.bind_option fun reader hreader => ?_
      have hitems := selfDelimiting_readMany (h reader hreader).selfDelimiting (2 * n)
      refine hitems.bind fun items => SelfDelimiting.bind_option fun entries _ => ?_
      exact SelfDelimiting.pure (Nat.zero_sub (sizeOfAll items))
    | tag => exact selfDelimiting_tag h n
    | special =>
      show SelfDelimiting _ (fun s => if 2 ≤ width then _ else if 20 ≤ n ∧ n ≤ 23 then _ else _)
      split
      · exact SelfDelimiting.pure rfl
      · split
        · exact SelfDelimiting.pure rfl
        · exact SelfDelimiting.fail
  | indefinite major =>
    cases major with
    | bytes =>
      refine (fueled_readChunks .bytes 1).selfDelimiting.bind fun chunks => SelfDelimiting.pure ?_
      exact Nat.sub_eq_zero_of_le (Nat.le_succ _)
    | text =>
      refine (fueled_readChunks .text 1).selfDelimiting.bind fun chunks => ?_
      exact SelfDelimiting.bind_option fun t _ => SelfDelimiting.pure (Nat.zero_sub _)
    | array =>
      refine SelfDelimiting.bind_option fun reader hreader => ?_
      have hitems := (fueled_readUntilBreak (h reader hreader).selfDelimiting).selfDelimiting
      refine hitems.bind fun items => SelfDelimiting.pure ?_
      exact Nat.sub_eq_zero_of_le (Nat.le_succ _)
    | map =>
      refine SelfDelimiting.bind_option fun reader hreader => ?_
      have hitems := (fueled_readUntilBreak (h reader hreader).selfDelimiting).selfDelimiting
      refine hitems.bind fun items => SelfDelimiting.bind_option fun entries _ => ?_
      exact SelfDelimiting.pure (Nat.zero_sub _)
    | _ => exact SelfDelimiting.fail

theorem readsItems_readWith {inner : Option Reader} (h : ∀ reader ∈ inner, ReadsItems reader) :
    ReadsItems (readWith inner) := by
  refine ⟨selfDelimiting_readWith h, fun s x hread => ?_⟩
  obtain ⟨⟨head, rest⟩, hhead, -⟩ := Option.bind_eq_some_iff.1 hread
  exact ⟨head, rest, hhead⟩

theorem readsItems_readNested (depth : Nat) : ReadsItems (readNested depth) := by
  induction depth with
  | zero => exact readsItems_readWith fun _ h => nomatch h
  | succ depth ih =>
    refine readsItems_readWith fun reader hreader => ?_
    rwa [← Option.some.inj hreader]

/-- Reading an item is self-delimiting. -/
theorem selfDelimiting_read : SelfDelimiting Item.size Item.read :=
  (readsItems_readNested maxDepth).selfDelimiting

end Cbor

end UrReplay
