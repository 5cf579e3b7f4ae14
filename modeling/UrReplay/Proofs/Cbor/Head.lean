import UrReplay.Cbor.Head
import UrReplay.Proofs.BigEndian
/-!
# UrReplay.Proofs.Cbor.Head

A head that was written is read back (`read_head`), whatever follows it. The first byte holds the
major type and the low five bits (`toNat_firstByte`); either they are the argument (`read_short`), or
they say how many bytes it takes (`read_long`).
-/

namespace UrReplay

namespace Bytes

theorem cut?_append (a b : Bytes) : cut? a.length (a ++ b) = some (a, b) := by
  rw [cut?, if_pos (by simp), List.splitAt_eq, List.take_left, List.drop_left]

theorem cut?_eq_some_iff {n : Nat} {bytes a b : Bytes} :
    cut? n bytes = some (a, b) ↔ bytes = a ++ b ∧ a.length = n := by
  unfold cut?
  constructor
  · intro h
    split at h
    · rename_i hle
      rw [List.splitAt_eq, Option.some.injEq, Prod.mk.injEq] at h
      obtain ⟨rfl, rfl⟩ := h
      exact ⟨(List.take_append_drop n bytes).symm, List.length_take_of_le hle⟩
    · exact absurd h (by simp)
  · rintro ⟨rfl, rfl⟩
    exact cut?_append a b

end Bytes

namespace Cbor

theorem Major.code_lt (major : Major) : major.code < 8 := by
  cases major <;> decide

theorem toNat_firstByte (major : Major) {low : Nat} (h : low < 32) :
    (UInt8.ofNat (32 * major.code + low)).toNat = 32 * major.code + low := by
  have hcode := major.code_lt
  rw [UInt8.toNat_ofNat', Nat.mod_eq_of_lt]
  omega

theorem read_short (major : Major) {low : Nat} (h : low < 24) (rest : Bytes) :
    Head.read (UInt8.ofNat (32 * major.code + low) :: rest) =
      some (.definite major 0 low, rest) := by
  have hmajor : (32 * major.code + low) / 32 = major.code := by omega
  have hlow : (32 * major.code + low) % 32 = low := by omega
  rw [Head.read]
  simp only [toNat_firstByte major (h.trans (by decide)), hmajor, hlow, Major.ofCode_code, h,
    if_true]

theorem read_long (major : Major) {k : Nat} (hk : k < 4) {argument : Bytes}
    (hargument : argument.length = 1 <<< k) (rest : Bytes) :
    Head.read (UInt8.ofNat (32 * major.code + (24 + k)) :: (argument ++ rest)) =
      some (.definite major (1 <<< k) argument.value, rest) := by
  have hmajor : (32 * major.code + (24 + k)) / 32 = major.code := by omega
  have hlow : (32 * major.code + (24 + k)) % 32 = 24 + k := by omega
  have hshort : ¬24 + k < 24 := by omega
  have hlong : 24 + k < 28 := by omega
  have hwidth : 24 + k - 24 = k := by omega
  rw [Head.read]
  simp only [toNat_firstByte major (show 24 + k < 32 by omega), hmajor, hlow, Major.ofCode_code,
    hshort, hlong, hwidth, if_false, if_true]
  rw [← hargument, Bytes.cut?_append]
  rfl

/-- An argument in the bytes after the first one is read back if it fits in them. -/
theorem read_bigEndian (major : Major) {k n : Nat} (hk : k < 4) (hn : n < 256 ^ (1 <<< k))
    (rest : Bytes) :
    Head.read (UInt8.ofNat (32 * major.code + (24 + k)) :: (Bytes.bigEndian (1 <<< k) n ++ rest)) =
      some (.definite major (1 <<< k) n, rest) := by
  rw [read_long major hk (Bytes.length_bigEndian _ _), Bytes.value_bigEndian, Nat.mod_eq_of_lt hn]

/-- A head that was written is read back. -/
theorem read_head (major : Major) {n : Nat} (h : n < 18446744073709551616) (rest : Bytes) :
    ∃ width, Head.read (head major n ++ rest) = some (.definite major width n, rest) := by
  unfold head
  split
  · rename_i hn
    exact ⟨0, read_short major hn rest⟩
  · split
    · rename_i hn
      exact ⟨1, read_bigEndian major (k := 0) (by decide) hn rest⟩
    · split
      · rename_i hn
        exact ⟨2, read_bigEndian major (k := 1) (by decide) hn rest⟩
      · split
        · rename_i hn
          exact ⟨4, read_bigEndian major (k := 2) (by decide) hn rest⟩
        · exact ⟨8, read_bigEndian major (k := 3) (by decide) h rest⟩

end Cbor

end UrReplay
