import UrReplay.Bytes
/-!
# UrReplay.Crc32

The 32-bit cyclic redundancy check with the reflected polynomial `0xEDB88320`: the register starts
with every bit set, takes in one byte after another, and is complemented at the end. A table with
the effect of every byte does eight bit steps at once.
-/

namespace UrReplay.Crc32

/-- The polynomial, least significant bit first. -/
def polynomial : UInt32 := 0xEDB88320

/-- One bit step: shifts the register, and subtracts the polynomial if a bit falls out. -/
def shift (crc : UInt32) : UInt32 :=
  if crc &&& 1 = 1 then (crc >>> 1) ^^^ polynomial else crc >>> 1

/-- Eight bit steps on each value that fits in a byte. -/
def table : Vector UInt32 256 :=
  Vector.ofFn fun b => Nat.repeat shift 8 (UInt32.ofNat b)

/-- Takes one byte into the register. -/
def update (crc : UInt32) (b : UInt8) : UInt32 :=
  (crc >>> 8) ^^^ table.get (crc.toUInt8 ^^^ b).toFin

/-- The check value of a byte string. -/
def checksum (bytes : Bytes) : UInt32 := ~~~ bytes.foldl update 0xFFFFFFFF

end UrReplay.Crc32
