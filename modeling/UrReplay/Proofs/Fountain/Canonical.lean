import UrReplay.Proofs.Cbor.Item
import UrReplay.Proofs.Fountain.Header
/-!
# UrReplay.Proofs.Fountain.Canonical

The spellings of a header. A header may be spelled in many ways, and all spellings of a part come down
to the one that is written (`ofCbor_canonical`): the spelling of an item does not matter, and the item
is made of the fields of the part.

A header is delimited by itself. What follows it does not matter, and no part is read from one that was
cut short (`toCbor_delimited`): with the rest behind it, the same part would be read and bytes left
over.
-/

namespace UrReplay.Fountain.Part

open Cbor

variable {part : Part} {bytes : Bytes}

/-! ### Delimited headers -/

/-- What follows the item at the front does not matter. -/
theorem read_append {item : Item} {s rest : Bytes} (h : Item.read s = some (item, rest))
    (t : Bytes) : Item.read (s ++ t) = some (item, rest ++ t) := by
  obtain ⟨used, rfl, -, htakes⟩ := selfDelimiting_read s item rest h
  rw [List.append_assoc]
  exact htakes (rest ++ t)

/-- A header is read back whatever follows it, and nothing is read from a header that was cut short. -/
theorem toCbor_delimited (h : part.Carried) :
    (∀ rest, ofCbor (part.toCbor ++ rest) = .ok part) ∧
      ∀ front, front <+: part.toCbor → front ≠ part.toCbor → ofCbor front = .error .malformed := by
  refine ⟨h.ofCbor_toCbor, ?_⟩
  rintro front ⟨back, hback⟩ hne
  have hread : Item.read front = none := by
    by_contra hsome
    obtain ⟨⟨item, rest⟩, hfront⟩ := Option.ne_none_iff_exists'.1 hsome
    have hwhole := read_append hfront back
    have hwritten := h.read []
    rw [List.append_nil, ← hback, hwhole, Option.some.injEq, Prod.mk.injEq] at hwritten
    -- The whole header leaves no bytes over, so none were cut off.
    have hnil : back = [] := (List.append_eq_nil_iff.1 hwritten.2).2
    rw [hnil, List.append_nil] at hback
    exact hne hback
  rw [ofCbor, hread]

/-- Heads of every width, cut within the last one. -/
theorem toCbor_delimited_wide :
    let part : Part := ⟨1, 300, 70000, 7, List.replicate 24 0x2a⟩
    part.Carried ∧ ofCbor (part.toCbor ++ [0xff]) = .ok part ∧
      part.toCbor.take 13 <+: part.toCbor ∧ part.toCbor.take 13 ≠ part.toCbor ∧
      ofCbor (part.toCbor.take 13) = .error .malformed := by
  intro part
  have hpart : part.Carried := by constructor <;> decide
  obtain ⟨hback, hcut⟩ := toCbor_delimited hpart
  have hfront := List.take_prefix 13 part.toCbor
  have hne : part.toCbor.take 13 ≠ part.toCbor := by decide +kernel
  exact ⟨hpart, hback [0xff], hfront, hne, hcut _ hfront hne⟩

/-! ### Canonical forms -/

/-- The data of a part has no more bytes than the header that it was read from. -/
theorem length_data_le (h : ofCbor bytes = .ok part) : part.data.length ≤ bytes.length := by
  obtain ⟨-, rest, hread⟩ := ofCbor_eq_ok_iff.1 h
  obtain ⟨used, rfl, hsize, -⟩ := selfDelimiting_read bytes _ rest hread
  simp only [items, Item.size, sizeOfAll] at hsize
  rw [List.length_append]
  omega

/-- Bytes that are accepted as a part are accepted whatever follows them. They spell the item that the
part is written as, if there are not more of them than the length of a string can count. -/
theorem ofCbor_canonical (h : ofCbor bytes = .ok part) :
    ((1 ≤ part.seqNum.toNat ∧ part.seqNum.toNat < 4294967296) ∧
        (1 ≤ part.seqLen ∧ part.seqLen < 4294967296) ∧
        (1 ≤ part.messageLen ∧ part.messageLen < 4294967296) ∧
        part.checksum.toNat < 4294967296 ∧ part.data ≠ []) ∧
      (∀ rest, ofCbor (bytes ++ rest) = .ok part) ∧
      (bytes.length < 18446744073709551616 →
        ofCbor part.toCbor = .ok part ∧
          ∃ item rest, Item.read bytes = some (item, rest) ∧ Item.read part.toCbor = some (item, [])) := by
  obtain ⟨hpart, rest, hread⟩ := ofCbor_eq_ok_iff.1 h
  refine ⟨⟨⟨?_, part.seqNum.toNat_lt⟩, ⟨hpart.seqLen_pos, hpart.seqLen_lt⟩,
    ⟨hpart.messageLen_pos, hpart.messageLen_lt⟩, part.checksum.toNat_lt, hpart.data⟩, ?_, ?_⟩
  · rw [Nat.one_le_iff_ne_zero]
    exact fun hzero => hpart.seqNum (UInt32.toNat_inj.1 hzero)
  · intro more
    exact ofCbor_eq_ok_iff.2 ⟨hpart, rest ++ more, read_append hread more⟩
  · intro hlength
    have hcarried := hpart.carried ((length_data_le h).trans_lt hlength)
    have hwritten := hcarried.read []
    have hback := hcarried.ofCbor_toCbor []
    rw [List.append_nil] at hwritten hback
    exact ⟨hback, _, rest, hread, hwritten⟩

/-- An array of indefinite length, of a big number, two numbers in more bytes than they need, and data in
two chunks. -/
theorem ofCbor_canonical_lenient :
    let bytes : Bytes := [0x9f, 0xc2, 0x42, 0x00, 0x01, 0x18, 0x02, 0x1b, 0, 0, 0, 0, 0, 0, 0, 3, 0x07,
      0x5f, 0x41, 0x2a, 0x41, 0x17, 0xff, 0xff]
    let part : Part := ⟨1, 2, 3, 7, [0x2a, 0x17]⟩
    ofCbor bytes = .ok part ∧ ofCbor (bytes ++ [0x00]) = .ok part ∧
      bytes.length < 18446744073709551616 ∧ part.toCbor ≠ bytes ∧ ofCbor part.toCbor = .ok part := by
  intro bytes part
  have hread : ofCbor bytes = .ok part := by decide +kernel
  have hlength : bytes.length < 18446744073709551616 := by decide
  obtain ⟨-, hfollowed, hwritten⟩ := ofCbor_canonical hread
  exact ⟨hread, hfollowed [0x00], hlength, by decide +kernel, (hwritten hlength).1⟩

end UrReplay.Fountain.Part
