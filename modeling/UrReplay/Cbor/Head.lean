import UrReplay.Bytes
/-!
# UrReplay.Cbor.Head

The heads of CBOR data items. A head is a major type and an argument: a number that sits in the
first byte or in the 1, 2, 4 or 8 bytes after it, or the mark of an indefinite length. Writing
always takes the shortest form; reading accepts every form.
-/

namespace UrReplay.Cbor

/-- The eight kinds of data item. -/
inductive Major
  | unsigned
  | negative
  | bytes
  | text
  | array
  | map
  | tag
  | special
  deriving Repr, DecidableEq

namespace Major

/-- The number of a kind, as the top three bits of a head write it. -/
def code : Major → Nat
  | unsigned => 0
  | negative => 1
  | bytes => 2
  | text => 3
  | array => 4
  | map => 5
  | tag => 6
  | special => 7

/-- The kind with a number. -/
def ofCode : Nat → Major
  | 0 => unsigned
  | 1 => negative
  | 2 => bytes
  | 3 => text
  | 4 => array
  | 5 => map
  | 6 => tag
  | _ => special

@[simp] theorem ofCode_code (m : Major) : ofCode m.code = m := by
  cases m <;> rfl

end Major

/-- A head that has been read. -/
inductive Head
  /-- A kind and its argument, which took `width` bytes after the first one. -/
  | definite (major : Major) (width : Nat) (argument : Nat)
  /-- A kind with the mark of an indefinite length. -/
  | indefinite (major : Major)
  deriving Repr, DecidableEq

/-- The shortest head with an argument of at most 64 bits. -/
def head (major : Major) (n : Nat) : Bytes :=
  let first (low : Nat) : UInt8 := UInt8.ofNat (32 * major.code + low)
  if n < 24 then [first n]
  else if n < 256 then first 24 :: Bytes.bigEndian 1 n
  else if n < 65536 then first 25 :: Bytes.bigEndian 2 n
  else if n < 4294967296 then first 26 :: Bytes.bigEndian 4 n
  else first 27 :: Bytes.bigEndian 8 n

/-- Reads one head. The low five bits of the first byte hold an argument below 24, or announce one
of 1, 2, 4 or 8 bytes, or mark an indefinite length; three of their values are reserved. -/
def Head.read : Bytes → Option (Head × Bytes)
  | [] => none
  | b :: rest =>
    let major := Major.ofCode (b.toNat / 32)
    let low := b.toNat % 32
    if low < 24 then some (.definite major 0 low, rest)
    else if low < 28 then
      let width := 1 <<< (low - 24)
      (Bytes.cut? width rest).map fun (argument, rest) =>
        (.definite major width argument.value, rest)
    else if low = 31 then some (.indefinite major, rest)
    else none

/-- The byte that ends an item of indefinite length. -/
def breakByte : UInt8 := 0xFF

end UrReplay.Cbor
