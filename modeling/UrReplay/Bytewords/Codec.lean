import UrReplay.Bytewords.Alphabet
import UrReplay.Crc32
import UrReplay.Text.Hex
/-!
# UrReplay.Bytewords.Codec

Payloads written in bytewords and read back.

A body is the payload followed by its check value, most significant byte first, with one word for
each byte. Two styles write the words in full with a separator between them; the minimal style
writes the first and the last letter of each word and no separator. Reading ignores ASCII letter
case, and accepts a body only if its check value is that of its payload and the payload is not
empty.
-/

namespace UrReplay.Bytewords

/-- How the words of a body are written. -/
inductive Style
  /-- Full words, with a space between them. -/
  | standard
  /-- Full words, with a hyphen between them. -/
  | uri
  /-- First and last letters, with nothing between them. -/
  | minimal
  deriving Repr, DecidableEq

/-- Why a text is not a body. -/
inductive Error
  /-- A word, or pair of letters, is not in the alphabet. -/
  | invalidWord (word : Text)
  /-- The letters of a minimal body do not pair up; their number of bytes is given. -/
  | oddLength (size : Nat)
  /-- There are too few words for a check value and a payload. -/
  | tooShort (words : Nat)
  /-- The body carries one check value, and its payload has another. -/
  | checksum (carried computed : UInt32)
  deriving Repr, DecidableEq

/-- The number of bytes of a check value. -/
def checksumSize : Nat := 4

/-- The payload with its check value. -/
def checked (payload : Bytes) : Bytes :=
  payload ++ Bytes.bigEndian checksumSize (Crc32.checksum payload).toNat

/-! ### Writing -/

/-- Full words with a separator between them. -/
def joinWords (separator : Char) (bytes : Bytes) : Text :=
  [separator].intercalate (bytes.map word)

/-- First and last letters, one pair after another. -/
def joinLetters (bytes : Bytes) : Text :=
  bytes.flatMap fun b => [Char.ofNat (letters b).1.toNat, Char.ofNat (letters b).2.toNat]

/-- The body for a payload. -/
def encode (style : Style) (payload : Bytes) : Text :=
  match style with
  | .standard => joinWords ' ' (checked payload)
  | .uri => joinWords '-' (checked payload)
  | .minimal => joinLetters (checked payload)

/-! ### Reading -/

/-- The bytes that full words stand for. -/
def readWords : List Text → Except Error Bytes
  | [] => .ok []
  | w :: rest =>
    match byteOfWord? w with
    | none => .error (.invalidWord w)
    | some b => (readWords rest).map (b :: ·)

/-- The bytes that pairs of letters stand for; a last letter without a partner is left out. -/
def readLetters : Bytes → Except Error Bytes
  | first :: last :: rest =>
    match byteOfLetters? (first, last) with
    | none => .error (.invalidWord (Utf8.decodeLossy [first, last]))
    | some b => (readLetters rest).map (b :: ·)
  | _ => .ok []

/-- The payload of a body that has been read into bytes. -/
def unchecked (bytes : Bytes) : Except Error Bytes :=
  if bytes.length ≤ checksumSize then .error (.tooShort bytes.length)
  else
    let payload := bytes.take (bytes.length - checksumSize)
    let carried := UInt32.ofNat (Bytes.value (bytes.drop (bytes.length - checksumSize)))
    let computed := Crc32.checksum payload
    if carried = computed then .ok payload else .error (.checksum carried computed)

/-- The bytes of a lower-case body, check value included. -/
def read (style : Style) (body : Text) : Except Error Bytes :=
  match style with
  | .standard => readWords (body.split ' ')
  | .uri => readWords (body.split '-')
  | .minimal =>
    let letters := Utf8.encode body
    if letters.length % 2 = 1 then .error (.oddLength letters.length) else readLetters letters

/-- The payload of a body. -/
def decode (style : Style) (body : Text) : Except Error Bytes :=
  read style body.lower >>= unchecked

/-! ### Messages -/

/-- The wording of an error. -/
def Error.message : Error → String
  | .invalidWord word => "invalid byteword `" ++ String.ofList word ++ "`"
  | .oddLength size =>
    "minimal bytewords must have an even length, found " ++ toString size ++ " characters"
  | .tooShort words => "bytewords body too short: " ++ toString words ++ " words"
  | .checksum carried computed =>
    "bytewords checksum mismatch (expected " ++ Hex.ofWord carried ++ ", found "
      ++ Hex.ofWord computed ++ ")"

end UrReplay.Bytewords
