import UrReplay.Bytes
import UrReplay.Text.Basic
/-!
# UrReplay.Text.Utf8

Text as bytes and back, in UTF-8.

* `encode` and `decode?` are inverse to each other (`decode?_eq_some_iff`): a byte string is the
  encoding of at most one text, and of none if it is malformed.
* `decodeLossy` reads malformed bytes too. Each broken sequence becomes one replacement character,
  where a broken sequence is the longest beginning of a well-formed one, or else a single byte.
-/

namespace UrReplay.Utf8

/-- The bytes of a text. -/
def encode (t : Text) : Bytes := t.flatMap String.utf8EncodeChar

/-- The number of bytes of a text. -/
def size (t : Text) : Nat := (encode t).length

/-- The text with these bytes, if they are well-formed. -/
def decode? (bytes : Bytes) : Option Text :=
  bytes.toByteArray.utf8Decode?.map Array.toList

@[simp] theorem encode_nil : encode [] = [] := rfl

@[simp] theorem encode_cons (c : Char) (t : Text) :
    encode (c :: t) = String.utf8EncodeChar c ++ encode t := rfl

@[simp] theorem encode_append (s t : Text) : encode (s ++ t) = encode s ++ encode t := by
  simp [encode]

theorem toByteArray_encode (t : Text) : (encode t).toByteArray = t.utf8Encode := rfl

theorem decode?_encode (t : Text) : decode? (encode t) = some t := by
  simp [decode?, toByteArray_encode, List.utf8Decode?_utf8Encode]

theorem eq_encode_of_decode? {bytes : Bytes} {t : Text} (h : decode? bytes = some t) :
    bytes = encode t := by
  obtain ⟨chars, hc, rfl⟩ := Option.map_eq_some_iff.1 h
  have hs : bytes.toByteArray.utf8Decode?.isSome := by simp [hc]
  have he := ByteArray.utf8Encode_get_utf8Decode? (h := hs)
  simp only [hc, Option.get_some, ← toByteArray_encode] at he
  have hd := congrArg ByteArray.data he
  simpa using hd.symm

theorem decode?_eq_some_iff {bytes : Bytes} {t : Text} :
    decode? bytes = some t ↔ bytes = encode t :=
  ⟨eq_encode_of_decode?, fun h => h ▸ decode?_encode t⟩

/-! ### Malformed bytes -/

/-- What a broken sequence is read as. -/
def replacement : Char := '\uFFFD'

/-- Whether a byte can only continue a character. -/
def isContinuation (b : UInt8) : Bool := 0x80 ≤ b && b ≤ 0xBF

/-- Whether a three- or four-byte character can begin with these two bytes. -/
def isLongStart (first second : UInt8) : Bool :=
  isContinuation second &&
    ((first == 0xE0 && 0xA0 ≤ second) || (first == 0xED && second ≤ 0x9F) ||
      (first == 0xF0 && 0x90 ≤ second) || (first == 0xF4 && second ≤ 0x8F) ||
      (0xE1 ≤ first && first ≤ 0xF3 && first != 0xED && first != 0xF0))

/-- How many bytes after the one at `i` belong to the broken sequence that begins there. -/
def brokenTail (bytes : ByteArray) (i : Nat) : Nat :=
  match bytes[i]?, bytes[i + 1]?, bytes[i + 2]? with
  | some first, some second, third =>
    if isLongStart first second then
      if 0xF0 ≤ first && third.any isContinuation then 2 else 1
    else 0
  | _, _, _ => 0

/-- Reads the bytes from position `i` on. -/
def decodeLossyFrom (bytes : ByteArray) (i : Nat) : Text :=
  if i < bytes.size then
    match bytes.utf8DecodeChar? i with
    | some c => c :: decodeLossyFrom bytes (i + c.utf8Size)
    | none => replacement :: decodeLossyFrom bytes (i + (brokenTail bytes i + 1))
  else []
termination_by bytes.size - i
decreasing_by
  · have := c.utf8Size_pos
    omega
  · omega

/-- The text of any bytes, with a replacement character for each broken sequence. -/
def decodeLossy (bytes : Bytes) : Text := decodeLossyFrom bytes.toByteArray 0

end UrReplay.Utf8
