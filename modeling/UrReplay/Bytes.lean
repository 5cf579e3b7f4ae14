/-!
# UrReplay.Bytes

Byte strings: whole numbers written with the most significant byte first, and the exclusive or that
mixes fragments.
-/

namespace UrReplay

/-- A string of bytes. -/
abbrev Bytes := List UInt8

namespace Bytes

/-! ### Whole numbers, most significant byte first -/

/-- The last `width` bytes of `n`. -/
def bigEndian : (width : Nat) → (n : Nat) → Bytes
  | 0, _ => []
  | width + 1, n => UInt8.ofNat (n >>> (8 * width)) :: bigEndian width n

/-- The number that the bytes spell. -/
def value (bytes : Bytes) : Nat := bytes.foldl (fun n b => 256 * n + b.toNat) 0

@[simp] theorem length_bigEndian (width n : Nat) : (bigEndian width n).length = width := by
  induction width with
  | zero => rfl
  | succ width ih => simp [bigEndian, ih]

@[simp] theorem value_nil : value [] = 0 := rfl

/-- The first `n` bytes and the rest, if there are that many. -/
def cut? (n : Nat) (bytes : Bytes) : Option (Bytes × Bytes) :=
  if n ≤ bytes.length then some (bytes.splitAt n) else none

/-! ### Exclusive or -/

/-- The exclusive or of two byte strings, byte by byte, as long as the shorter one. -/
def xor (a b : Bytes) : Bytes := List.zipWith (· ^^^ ·) a b

@[simp] theorem length_xor (a b : Bytes) : (xor a b).length = min a.length b.length := by
  simp [xor]

/-- Adds bytes to `target` in its place. Its length stays: where there is nothing to add, the bytes stay
as they are. -/
def xorInto (target source : Bytes) : Bytes := xor target source ++ target.drop source.length

@[simp] theorem length_xorInto (target source : Bytes) :
    (xorInto target source).length = target.length := by
  simp only [xorInto, List.length_append, length_xor, List.length_drop]
  omega

/-- Nothing stays unless the target is longer. -/
theorem xorInto_of_length_le {target source : Bytes} (h : target.length ≤ source.length) :
    xorInto target source = xor target source := by
  rw [xorInto, List.drop_of_length_le h, List.append_nil]

end Bytes

end UrReplay
