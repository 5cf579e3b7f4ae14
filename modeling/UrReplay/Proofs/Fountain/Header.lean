import UrReplay.Fountain.Part
import UrReplay.Proofs.Cbor.Head
import UrReplay.Proofs.Except
/-!
# UrReplay.Proofs.Fountain.Header

The header of a part. Bytes are accepted as a part exactly if they begin with an item that consists of
its five fields, and these are in range and not zero (`ofCbor_eq_ok_iff`). What was written is read
back, whatever follows it (`ofCbor_toCbor`).
-/

namespace UrReplay

namespace Cbor

variable {n : Nat} {rest : Bytes}

theorem readWith_unsigned (inner : Option Reader) (h : n < 18446744073709551616) :
    readWith inner (head .unsigned n ++ rest) = some (.integer n, rest) := by
  obtain ⟨width, hread⟩ := read_head .unsigned h rest
  simp only [readWith, hread, Option.bind_eq_bind, Option.bind_some]

theorem readWith_bytes (inner : Option Reader) {b : Bytes} (h : b.length < 18446744073709551616) :
    readWith inner (head .bytes b.length ++ (b ++ rest)) = some (.bytes b, rest) := by
  obtain ⟨width, hread⟩ := read_head .bytes h (b ++ rest)
  simp only [readWith, hread, Option.bind_eq_bind, Option.bind_some, Bytes.cut?_append]

theorem readWith_array {reader : Reader} {s : Bytes} {items : List Item}
    (h : n < 18446744073709551616) (hitems : readMany reader n s = some (items, rest)) :
    readWith (some reader) (head .array n ++ s) = some (.array items, rest) := by
  obtain ⟨width, hread⟩ := read_head .array h s
  simp only [readWith, hread, Option.bind_eq_bind, Option.bind_some, hitems]

theorem readMany_succ {reader : Reader} {s s' : Bytes} {item : Item} {items : List Item}
    (hitem : reader s = some (item, s')) (hitems : readMany reader n s' = some (items, rest)) :
    readMany reader (n + 1) s = some (item :: items, rest) := by
  simp only [readMany, hitem, hitems, Option.bind_eq_bind, Option.bind_some]

end Cbor

namespace Fountain

open Cbor

/-- The parts that a header can carry: no field is zero or empty, and every number fits. -/
structure Part.Carried (part : Part) : Prop where
  seqNum : part.seqNum ≠ 0
  seqLen_pos : 0 < part.seqLen
  seqLen_lt : part.seqLen < UInt32.size
  messageLen_pos : 0 < part.messageLen
  messageLen_lt : part.messageLen < UInt32.size
  data : part.data ≠ []
  length_lt : part.data.length < UInt64.size

namespace Part

variable {part : Part} {bytes : Bytes}

/-- The parts that a header can give: no field is zero or empty, and every number fits. Their data can
be of any length, because it need not come in one piece. -/
structure WellFormed (part : Part) : Prop where
  seqNum : part.seqNum ≠ 0
  seqLen_pos : 0 < part.seqLen
  seqLen_lt : part.seqLen < UInt32.size
  messageLen_pos : 0 < part.messageLen
  messageLen_lt : part.messageLen < UInt32.size
  data : part.data ≠ []

theorem Carried.wellFormed (h : part.Carried) : part.WellFormed :=
  ⟨h.seqNum, h.seqLen_pos, h.seqLen_lt, h.messageLen_pos, h.messageLen_lt, h.data⟩

theorem WellFormed.carried (h : part.WellFormed) (hlength : part.data.length < UInt64.size) :
    part.Carried :=
  ⟨h.seqNum, h.seqLen_pos, h.seqLen_lt, h.messageLen_pos, h.messageLen_lt, h.data, hlength⟩

/-- The five fields of a header. -/
def items (part : Part) : List Item :=
  [.integer part.seqNum.toNat, .integer part.seqLen, .integer part.messageLen,
    .integer part.checksum.toNat, .bytes part.data]

/-! ### What is accepted -/

theorem wordField_eq (f : Field) {n : Nat} (h : n < UInt32.size) :
    wordField f (.integer n) = .ok n := by
  show (if n < UInt32.size then Except.ok n else .error (HeaderError.field f)) = _
  rw [if_pos h]

theorem wordField_eq_ok_iff {f : Field} {item : Item} {n : Nat} :
    wordField f item = .ok n ↔ item = .integer n ∧ n < UInt32.size := by
  constructor
  · intro h
    unfold wordField at h
    split at h
    · split at h
      · rename_i m hm
        obtain rfl := Except.ok.inj h
        exact ⟨rfl, hm⟩
      · exact absurd h (by simp)
    · exact absurd h (by simp)
  · rintro ⟨rfl, h⟩
    exact wordField_eq f h

theorem bytesField_eq_ok_iff {f : Field} {item : Item} {b : Bytes} :
    bytesField f item = .ok b ↔ item = .bytes b := by
  constructor
  · intro h
    unfold bytesField at h
    split at h
    · rw [Except.ok.inj h]
    · exact absurd h (by simp)
  · rintro rfl
    rfl

/-- The fields that give a part are its own, and its numbers are those that they hold. -/
theorem ofFields_eq_ok_iff {fields : List Item} :
    ofFields fields = .ok part ↔
      fields = part.items ∧ part.seqLen < UInt32.size ∧ part.messageLen < UInt32.size := by
  constructor
  · intro h
    unfold ofFields at h
    split at h
    · simp only [Except.bind_eq_ok_iff, wordField_eq_ok_iff, bytesField_eq_ok_iff] at h
      obtain ⟨seqNum, ⟨rfl, hseqNum⟩, seqLen, ⟨rfl, hseqLen⟩, messageLen, ⟨rfl, hmessageLen⟩,
        checksum, ⟨rfl, hchecksum⟩, data, rfl, h⟩ := h
      obtain rfl := Except.ok.inj h
      refine ⟨?_, hseqLen, hmessageLen⟩
      simp only [items, UInt32.toNat_ofNat_of_lt' hseqNum, UInt32.toNat_ofNat_of_lt' hchecksum]
    · exact absurd h (by simp)
  · rintro ⟨rfl, hseqLen, hmessageLen⟩
    simp only [ofFields, items, wordField_eq .seqNum part.seqNum.toNat_lt_size,
      wordField_eq .seqLen hseqLen, wordField_eq .messageLen hmessageLen,
      wordField_eq .checksum part.checksum.toNat_lt_size, bytesField, UInt32.ofNat_toNat, bind,
      Except.bind]

theorem zeroField?_eq_none_iff :
    part.zeroField? = none ↔
      part.seqNum ≠ 0 ∧ part.seqLen ≠ 0 ∧ part.messageLen ≠ 0 ∧ part.data ≠ [] := by
  unfold Part.zeroField?
  split_ifs <;> simp_all

theorem ofItem_eq_ok_iff {item : Item} :
    ofItem item = .ok part ↔ item = .array part.items ∧ part.WellFormed := by
  constructor
  · intro h
    unfold Part.ofItem at h
    split at h
    · obtain ⟨part', hfields, h⟩ := Except.bind_eq_ok_iff.1 h
      split at h
      · exact absurd h (by simp)
      · rename_i hzero
        obtain rfl := Except.ok.inj h
        obtain ⟨rfl, hseqLen, hmessageLen⟩ := ofFields_eq_ok_iff.1 hfields
        obtain ⟨hseqNum, hseqLen', hmessageLen', hdata⟩ := zeroField?_eq_none_iff.1 hzero
        exact ⟨rfl, hseqNum, Nat.pos_of_ne_zero hseqLen', hseqLen, Nat.pos_of_ne_zero hmessageLen',
          hmessageLen, hdata⟩
    · exact absurd h (by simp)
  · rintro ⟨rfl, h⟩
    have hfields := ofFields_eq_ok_iff.2 ⟨rfl, h.seqLen_lt, h.messageLen_lt⟩
    have hzero := zeroField?_eq_none_iff.2 ⟨h.seqNum, h.seqLen_pos.ne', h.messageLen_pos.ne', h.data⟩
    simp only [Part.ofItem, hfields, hzero, bind, Except.bind]

/-- Bytes are accepted as a part if they begin with an item of its five fields, however it is
spelled. -/
theorem ofCbor_eq_ok_iff :
    ofCbor bytes = .ok part ↔
      part.WellFormed ∧ ∃ rest, Item.read bytes = some (.array part.items, rest) := by
  unfold Part.ofCbor
  constructor
  · intro h
    split at h
    · exact absurd h (by simp)
    · rename_i item rest hread
      obtain ⟨rfl, hwellFormed⟩ := ofItem_eq_ok_iff.1 h
      exact ⟨hwellFormed, rest, hread⟩
  · rintro ⟨h, rest, hread⟩
    rw [hread]
    exact ofItem_eq_ok_iff.2 ⟨rfl, h⟩

theorem messageLen_pos (h : ofCbor bytes = .ok part) : 1 ≤ part.messageLen :=
  (ofCbor_eq_ok_iff.1 h).1.messageLen_pos

/-! ### Reading back -/

/-- The item that was written is read. -/
theorem Carried.read (h : part.Carried) (rest : Bytes) :
    Item.read (part.toCbor ++ rest) = some (.array part.items, rest) := by
  have hbig {n : Nat} (hn : n < UInt32.size) : n < 18446744073709551616 := hn.trans (by decide)
  simp only [toCbor, List.append_assoc]
  refine readWith_array (by decide) ?_
  refine readMany_succ (readWith_unsigned _ (hbig part.seqNum.toNat_lt_size)) ?_
  refine readMany_succ (readWith_unsigned _ (hbig h.seqLen_lt)) ?_
  refine readMany_succ (readWith_unsigned _ (hbig h.messageLen_lt)) ?_
  refine readMany_succ (readWith_unsigned _ (hbig part.checksum.toNat_lt_size)) ?_
  exact readMany_succ (readWith_bytes _ h.length_lt) rfl

/-- A header that was written is read back, whatever follows it. -/
theorem Carried.ofCbor_toCbor (h : part.Carried) (rest : Bytes) :
    ofCbor (part.toCbor ++ rest) = .ok part :=
  ofCbor_eq_ok_iff.2 ⟨h.wellFormed, rest, h.read rest⟩

end Part

end Fountain

end UrReplay
