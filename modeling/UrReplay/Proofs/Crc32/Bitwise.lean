import UrReplay.Proofs.Crc32
import UrReplay.Proofs.Xor
/-!
# UrReplay.Proofs.Crc32.Bitwise

The check value without a table. A register takes in one bit after another, of each byte the lowest one
first (`feed`); in `bitwise` it starts with every bit set and is complemented at the end.

* The table does what eight bits do one by one, whatever the register (`foldl_feed_byte`), so both give
  the same check value of every byte string.
* A byte step is linear in the register and the byte together (`update_xor`). So the check value is
  linear in exclusive or, up to the part that the length alone decides, which is the check value of as
  many zeros (`foldl_update_xor`).
-/

namespace UrReplay.Crc32

/-- The lowest bits of a number, the lowest first. -/
def lowBits : (width n : Nat) → List Bool
  | 0, _ => []
  | width + 1, n => n.testBit 0 :: lowBits width (n / 2)

/-- Takes one bit into the register. The polynomial, least significant bit first, is subtracted if the
bit that falls out of the register is not the one that comes in. -/
def feed (poly crc : UInt32) (bit : Bool) : UInt32 :=
  if crc.toNat.testBit 0 = bit then crc >>> 1 else (crc >>> 1) ^^^ poly

/-- The check value of a sequence of bits. -/
def bitwise (poly : UInt32) (bits : List Bool) : UInt32 := ~~~ bits.foldl (feed poly) 0xFFFFFFFF

/-! ### Bits -/

/-- Taking in a bit is mixing it into the register, and one bit step. -/
theorem feed_testBit (crc : UInt32) (n : Nat) :
    feed polynomial crc (n.testBit 0) = shift (crc ^^^ UInt32.ofNat (n % 2)) := by
  have hgone : (1 : UInt32) >>> 1 = 0 := by decide
  rw [feed, shift_eq, subtrahend_xor, UInt32.shiftRight_xor, subtrahend, Nat.testBit_zero, Nat.testBit_zero]
  rcases Nat.mod_two_eq_zero_or_one crc.toNat with hcrc | hcrc <;>
    rcases Nat.mod_two_eq_zero_or_one n with hn | hn <;> simp [hcrc, hn, hgone, subtrahend]

/-- The lowest bit of a number, and the others in their places. -/
theorem mod_two_xor_two_mul_div_two (n : Nat) : (n % 2) ^^^ (2 * (n / 2)) = n := by
  refine Nat.eq_of_testBit_eq fun i => ?_
  cases i with
  | zero => simp
  | succ i => simp [Nat.testBit_succ, Nat.xor_div_two]

theorem shift_ofNat_two_mul {n : Nat} (h : 2 * n < UInt32.size) :
    shift (UInt32.ofNat (2 * n)) = UInt32.ofNat n := by
  have hdouble : (UInt32.ofNat (2 * n)).toNat = 2 * n := UInt32.toNat_ofNat_of_lt' h
  refine UInt32.toNat_inj.1 ?_
  rw [shift_of_even (by omega), hdouble, UInt32.toNat_ofNat_of_lt' (by omega)]
  omega

theorem repeat_shift_succ (n : Nat) (crc : UInt32) :
    Nat.repeat shift (n + 1) crc = Nat.repeat shift n (shift crc) := by
  induction n with
  | zero => rfl
  | succ n ih => exact congrArg shift ih

/-- Taking in bits one by one is mixing the number that they spell into the register, and as many bit
steps. The bits that have not come in yet move down with the register. -/
theorem foldl_feed {width n : Nat} (hwidth : width ≤ 32) (hn : n < 2 ^ width) (crc : UInt32) :
    (lowBits width n).foldl (feed polynomial) crc =
      Nat.repeat shift width (crc ^^^ UInt32.ofNat n) := by
  -- The bits that are left spell `n / 2`. Mixed in before the step, they stand one place higher.
  induction width generalizing n crc with
  | zero =>
    obtain rfl : n = 0 := by omega
    exact UInt32.xor_zero.symm
  | succ width ih =>
    have hhalf : n / 2 < 2 ^ width := by omega
    have hdouble : 2 * (n / 2) < UInt32.size := by
      have hword : 2 ^ (width + 1) ≤ UInt32.size := Nat.pow_le_pow_right (by decide) hwidth
      omega
    have hsplit : UInt32.ofNat n = UInt32.ofNat (n % 2) ^^^ UInt32.ofNat (2 * (n / 2)) := by
      rw [← UInt32.ofNat_xor, mod_two_xor_two_mul_div_two]
    rw [lowBits, List.foldl_cons, ih (by omega) hhalf, feed_testBit, repeat_shift_succ, hsplit,
      ← UInt32.xor_assoc, shift_xor (crc ^^^ UInt32.ofNat (n % 2)), shift_ofNat_two_mul hdouble]

/-- The table does what the eight bits of a byte do one by one. -/
theorem foldl_feed_byte (crc : UInt32) (b : UInt8) :
    (lowBits 8 b.toNat).foldl (feed polynomial) crc = update crc b := by
  rw [foldl_feed (by decide) b.toNat_lt, update_eq, UInt32.ofNat_uInt8ToNat, advance]

/-! ### Linearity -/

/-- A byte step is linear in the register and the byte together. -/
theorem update_xor (crc crc' : UInt32) (b b' : UInt8) :
    update (crc ^^^ crc') (b ^^^ b') = update crc b ^^^ update crc' b' := by
  rw [update_eq, update_eq, update_eq, UInt8.toUInt32_xor, xor_xor_xor_comm, advance_xor]

theorem foldl_update_xor {a b : Bytes} (h : a.length = b.length) (crc crc' : UInt32) :
    (Bytes.xor a b).foldl update (crc ^^^ crc') = a.foldl update crc ^^^ b.foldl update crc' := by
  induction a generalizing b crc crc' with
  | nil =>
    cases b with
    | nil => rfl
    | cons y b => simp at h
  | cons x a ih =>
    cases b with
    | nil => simp at h
    | cons y b =>
      have hrest : a.length = b.length := by simpa using h
      rw [List.foldl_cons, List.foldl_cons, ← ih hrest, ← update_xor]
      rfl

/-- What the check values of two byte strings have in common is the check value of as many zeros. -/
theorem checksum_xor {a b : Bytes} (h : a.length = b.length) :
    checksum a ^^^ checksum b ^^^ checksum (Bytes.zeros a.length) = checksum (Bytes.xor a b) := by
  have hlength : (Bytes.xor a b).length = a.length := by simp [h]
  have hzeros : (Bytes.xor a b).length = (Bytes.zeros a.length).length := by simp [h]
  have hstart : (0xFFFFFFFF : UInt32) ^^^ 0xFFFFFFFF ^^^ 0xFFFFFFFF = 0xFFFFFFFF := by decide
  have hsum := foldl_update_xor hzeros (0xFFFFFFFF ^^^ 0xFFFFFFFF) 0xFFFFFFFF
  rw [foldl_update_xor h, Bytes.xor_zeros hlength, hstart] at hsum
  rw [checksum, checksum, checksum, checksum, hsum]
  simp only [UInt32.not_xor, UInt32.xor_not, UInt32.not_not]

/-- The check value is the one that the bits give one by one, of each byte the lowest one first. It is
linear up to the length: the check values of two byte strings of one length and that of as many zeros make
up the check value of their exclusive or. -/
theorem checksum_bitwise :
    (∀ bytes : Bytes,
        checksum bytes = bitwise 0xEDB88320 (bytes.flatMap fun b => lowBits 8 b.toNat)) ∧
      ∀ a b : Bytes, a.length = b.length →
        checksum a ^^^ checksum b ^^^ checksum (Bytes.zeros a.length) = checksum (Bytes.xor a b) := by
  refine ⟨fun bytes => ?_, fun a b => checksum_xor⟩
  rw [checksum, bitwise, List.foldl_flatMap]
  exact congrArg _ (List.foldl_ext _ _ _ fun crc b _ => (foldl_feed_byte crc b).symm)

/-- The digits from one to nine have the usual test value, bit by bit. -/
theorem checksum_bitwise_digits :
    let digits : Bytes := [49, 50, 51, 52, 53, 54, 55, 56, 57]
    bitwise 0xEDB88320 (digits.flatMap fun b => lowBits 8 b.toNat) = 0xCBF43926 ∧
      ([117, 114, 58] : Bytes).length = ([0, 255, 1] : Bytes).length ∧
      checksum [117, 114, 58] ^^^ checksum [0, 255, 1] ^^^ checksum [0, 0, 0] = checksum [117, 141, 59] := by
  intro digits
  have hvalue : checksum digits = 0xCBF43926 := by decide +kernel
  exact ⟨(checksum_bitwise.1 digits).symm.trans hvalue, rfl,
    checksum_bitwise.2 [117, 114, 58] [0, 255, 1] rfl⟩

end UrReplay.Crc32
