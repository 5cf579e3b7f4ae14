import UrReplay.Text.Utf8
/-!
# UrReplay.Text.Hex

Bytes written as pairs of hexadecimal digits. Digits are written in lower case and read in either
case. A text that cannot be read is judged by its UTF-8 bytes: an odd number of them is reported
before anything else, and then the first byte that is no digit, with its position.
-/

namespace UrReplay.Hex

/-- The sixteen digits, in order. -/
def digits : Text := "0123456789abcdef".toList

/-- The digit for a value below sixteen. -/
def digit (n : Nat) : Char := digits.getD n '0'

/-- The value of a digit, given as its byte; letters count in either case. -/
def digitValue? (b : UInt8) : Option Nat :=
  digits.findIdx? fun d => d == (Char.ofNat b.toNat).toLower

/-- Two lower-case digits for each byte. -/
def encode (bytes : Bytes) : Text :=
  bytes.flatMap fun b => [digit (b.toNat / 16), digit (b.toNat % 16)]

/-- Why a text is not the digits of a byte string. -/
inductive Error
  /-- The number of bytes is odd, so they do not pair up. -/
  | oddLength
  /-- The byte at this position is no digit. -/
  | invalidDigit (byte : UInt8) (position : Nat)
  deriving Repr, DecidableEq

/-- Reads pairs of digits; `position` counts the bytes before them. -/
def decodePairs (position : Nat) : Bytes → Except Error Bytes
  | [] => .ok []
  | [_] => .error .oddLength
  | high :: low :: rest =>
    match digitValue? high, digitValue? low with
    | none, _ => .error (.invalidDigit high position)
    | _, none => .error (.invalidDigit low (position + 1))
    | some h, some l =>
      match decodePairs (position + 2) rest with
      | .ok bytes => .ok (UInt8.ofNat (16 * h + l) :: bytes)
      | .error e => .error e

/-- The bytes that a text of digits spells. -/
def decode (t : Text) : Except Error Bytes :=
  let bytes := Utf8.encode t
  if bytes.length % 2 = 1 then .error .oddLength else decodePairs 0 bytes

/-- The eight digits of a 32-bit word. -/
def ofWord (word : UInt32) : String :=
  String.ofList (encode (Bytes.bigEndian 4 word.toNat))

/-! ### Messages -/

/-- The character with the code point of a byte, in quotes; one that would not show as itself is
escaped. -/
def quoted (b : UInt8) : String :=
  let body :=
    match Char.ofNat b.toNat with
    | '\x00' => "\\0"
    | '\t' => "\\t"
    | '\n' => "\\n"
    | '\r' => "\\r"
    | '\'' => "\\'"
    | '\\' => "\\\\"
    | c =>
      if b < 0x20 || (0x7F ≤ b && b ≤ 0xA0) || b = 0xAD then
        "\\u\x7b" ++ String.ofList (Nat.toDigits 16 b.toNat) ++ "\x7d"
      else c.toString
  "'" ++ body ++ "'"

/-- The wording of an error. -/
def Error.message : Error → String
  | .oddLength => "Odd number of digits"
  | .invalidDigit byte position =>
    "Invalid character " ++ quoted byte ++ " at position " ++ toString position

end UrReplay.Hex
