import Mathlib.Tactic.NormNum
import Mathlib.Tactic.Ring
import UrReplay.Bytes
/-!
# UrReplay.Proofs.BigEndian

Whole numbers as bytes: the bytes of a number spell what of it they have room for
(`value_bigEndian`), and strings of one length spell different numbers (`value_inj`).
-/

namespace UrReplay.Bytes

theorem foldl_value (bytes : Bytes) (n : Nat) :
    bytes.foldl (fun n b => 256 * n + b.toNat) n = n * 256 ^ bytes.length + value bytes := by
  induction bytes generalizing n with
  | nil => simp
  | cons b bytes ih =>
    simp only [value, List.foldl_cons, List.length_cons, Nat.mul_zero, Nat.zero_add]
    rw [ih, ih b.toNat]
    ring

@[simp] theorem value_cons (b : UInt8) (bytes : Bytes) :
    value (b :: bytes) = b.toNat * 256 ^ bytes.length + value bytes := by
  simpa [value] using foldl_value bytes b.toNat

/-- Writing a number and reading it back keeps what the width holds. -/
theorem value_bigEndian (width n : Nat) : value (bigEndian width n) = n % 256 ^ width := by
  induction width with
  | zero => simp [bigEndian, Nat.mod_one]
  | succ width ih =>
    have hshift : n >>> (8 * width) = n / 256 ^ width := by
      rw [Nat.shiftRight_eq_div_pow, pow_mul]
      norm_num
    rw [bigEndian, value_cons, length_bigEndian, ih, hshift, pow_succ, Nat.mod_mul]
    simp [Nat.mul_comm, Nat.add_comm]

theorem value_lt (bytes : Bytes) : value bytes < 256 ^ bytes.length := by
  induction bytes with
  | nil => exact Nat.one_pos
  | cons b bytes ih =>
    have hfirst : (b.toNat + 1) * 256 ^ bytes.length ≤ 256 * 256 ^ bytes.length :=
      Nat.mul_le_mul_right _ b.toNat_lt
    rw [Nat.succ_mul] at hfirst
    rw [value_cons, List.length_cons, pow_succ']
    omega

/-- The first byte is the quotient by the room for the others, which spell the remainder. -/
theorem value_cons_div_mod (b : UInt8) (bytes : Bytes) :
    value (b :: bytes) / 256 ^ bytes.length = b.toNat ∧
      value (b :: bytes) % 256 ^ bytes.length = value bytes := by
  have hlt := value_lt bytes
  rw [value_cons, Nat.mul_comm, Nat.mul_add_div (Nat.pow_pos (by decide)), Nat.mul_add_mod,
    Nat.div_eq_of_lt hlt, Nat.mod_eq_of_lt hlt]
  exact ⟨rfl, rfl⟩

/-- Strings of one length are told apart by the number that they spell. -/
theorem value_inj {a b : Bytes} (hlength : a.length = b.length) : value a = value b ↔ a = b := by
  refine ⟨fun h => ?_, fun h => h ▸ rfl⟩
  induction a generalizing b with
  | nil => exact (List.eq_nil_of_length_eq_zero hlength.symm).symm
  | cons x a ih =>
    cases b with
    | nil => exact absurd hlength (Nat.succ_ne_zero _)
    | cons y b =>
      have hrest : a.length = b.length := Nat.succ_injective hlength
      obtain ⟨hx, ha⟩ := value_cons_div_mod x a
      obtain ⟨hy, hb⟩ := value_cons_div_mod y b
      rw [h, hrest] at hx ha
      rw [UInt8.toNat_inj.1 (hx.symm.trans hy), ih hrest (ha.symm.trans hb)]

end UrReplay.Bytes
