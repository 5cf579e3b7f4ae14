import UrReplay.Cbor.Head
import UrReplay.Text.Utf8
/-!
# UrReplay.Cbor.Item

CBOR data items and their reader.

* Lengths may be indefinite, and heads need not be the shortest ones.
* A big number, which is tag 2 or 3 over a byte string of definite length and at most sixteen bytes,
  is read as an integer. Every other tag makes a tagged item.
* Containers and tags nest to a fixed depth; deeper input is refused, so a reader needs no more
  stack than the depth allows.
* `Item.read` reads one item and hands back the bytes after it.
-/

namespace UrReplay.Cbor

/-- A data item. -/
inductive Item
  | integer (n : Int)
  | bytes (b : Bytes)
  | text (t : Text)
  | array (items : List Item)
  /-- Keys and values, in the order of the input. -/
  | map (entries : List (Item × Item))
  | tag (number : Nat) (item : Item)
  /-- One of the values false, true, null and undefined, numbered 20 to 23. -/
  | simple (number : Nat)
  /-- A floating-point number, as the bytes that write it. -/
  | float (width : Nat) (bits : Nat)

/-- Reads one item off the front of the bytes; none if they do not begin with a whole one. -/
abbrev Reader := Bytes → Option (Item × Bytes)

/-! ### Strings -/

/-- The chunks of a string of indefinite length. `depth` counts the strings that are open, since
such a string may hold others of its kind, and `fuel` bounds the number of heads. -/
def readChunks (major : Major) : (fuel depth : Nat) → Bytes → Option (List Bytes × Bytes)
  | 0, _, _ => none
  | fuel + 1, depth, s =>
    match Head.read s with
    | some (.definite m _ n, rest) =>
      if m = major then do
        let (chunk, rest) ← Bytes.cut? n rest
        let (chunks, rest) ← readChunks major fuel depth rest
        some (chunk :: chunks, rest)
      else none
    | some (.indefinite m, rest) =>
      if m = major then readChunks major fuel (depth + 1) rest
      else if m = .special then
        match depth with
        | depth + 2 => readChunks major fuel (depth + 1) rest
        | _ => some ([], rest)
      else none
    | none => none

/-- The text of chunks that are each well-formed. -/
def textOfChunks? : List Bytes → Option Text
  | [] => some []
  | chunk :: rest => do
    let t ← Utf8.decode? chunk
    let ts ← textOfChunks? rest
    some (t ++ ts)

/-! ### Containers -/

/-- Reads `n` items, one after another. -/
def readMany (reader : Reader) : (n : Nat) → Bytes → Option (List Item × Bytes)
  | 0, s => some ([], s)
  | n + 1, s => do
    let (item, rest) ← reader s
    let (items, rest) ← readMany reader n rest
    some (item :: items, rest)

/-- Reads items up to the byte that ends them; `fuel` bounds their number. -/
def readUntilBreak (reader : Reader) : (fuel : Nat) → Bytes → Option (List Item × Bytes)
  | 0, _ => none
  | fuel + 1, s =>
    match s with
    | [] => none
    | b :: rest =>
      if b = breakByte then some ([], rest)
      else do
        let (item, rest) ← reader s
        let (items, rest) ← readUntilBreak reader fuel rest
        some (item :: items, rest)

/-- The entries of a map whose keys and values alternate; none if the last key has no value. -/
def entriesOfItems? : List Item → Option (List (Item × Item))
  | [] => some []
  | [_] => none
  | key :: value :: rest => (entriesOfItems? rest).map ((key, value) :: ·)

/-! ### Tags -/

/-- The largest number of bytes that a big number may have. -/
def bigNumberSize : Nat := 16

/-- The big number behind a tag: a magnitude for tag 2, and for tag 3 the number that many below
minus one, which must fit in 128 bits with its sign. The outer option says whether the bytes after
the tag are a big number at all. -/
def readBigNumber? (tag : Nat) (s : Bytes) : Option (Option (Item × Bytes)) :=
  match tag, Head.read s with
  | 2, some (.definite .bytes _ n, rest) =>
    if n ≤ bigNumberSize then
      some ((Bytes.cut? n rest).map fun (digits, rest) => (.integer digits.value, rest))
    else none
  | 3, some (.definite .bytes _ n, rest) =>
    if n ≤ bigNumberSize then
      some do
        let (digits, rest) ← Bytes.cut? n rest
        if digits.value < 1 <<< 127 then some (.integer (-1 - digits.value), rest) else none
    else none
  | _, _ => none

/-! ### Items -/

/-- Reads an item whose parts are read with `inner`; without it, containers and tags are refused. -/
def readWith (inner : Option Reader) : Reader := fun s => do
  let (head, rest) ← Head.read s
  match head with
  | .definite .unsigned _ n => some (.integer n, rest)
  | .definite .negative _ n => some (.integer (-1 - n), rest)
  | .definite .bytes _ n => do
    let (b, rest) ← Bytes.cut? n rest
    some (.bytes b, rest)
  | .definite .text _ n => do
    let (b, rest) ← Bytes.cut? n rest
    let t ← Utf8.decode? b
    some (.text t, rest)
  | .definite .array _ n => do
    let (items, rest) ← readMany (← inner) n rest
    some (.array items, rest)
  | .definite .map _ n => do
    let (items, rest) ← readMany (← inner) (2 * n) rest
    some (.map (← entriesOfItems? items), rest)
  | .definite .tag _ n =>
    match readBigNumber? n rest with
    | some number => number
    | none => do
      let (item, rest) ← (← inner) rest
      some (.tag n item, rest)
  | .definite .special width n =>
    if 2 ≤ width then some (.float width n, rest)
    else if 20 ≤ n ∧ n ≤ 23 then some (.simple n, rest)
    else none
  | .indefinite .bytes => do
    let (chunks, rest) ← readChunks .bytes (rest.length + 1) 1 rest
    some (.bytes chunks.flatten, rest)
  | .indefinite .text => do
    let (chunks, rest) ← readChunks .text (rest.length + 1) 1 rest
    some (.text (← textOfChunks? chunks), rest)
  | .indefinite .array => do
    let (items, rest) ← readUntilBreak (← inner) (rest.length + 1) rest
    some (.array items, rest)
  | .indefinite .map => do
    let (items, rest) ← readUntilBreak (← inner) (rest.length + 1) rest
    some (.map (← entriesOfItems? items), rest)
  | .indefinite _ => none

/-- How deep containers and tags may nest. -/
def maxDepth : Nat := 256

/-- Reads an item with at most `depth` containers and tags around each part. -/
def readNested : (depth : Nat) → Reader
  | 0 => readWith none
  | depth + 1 => readWith (some (readNested depth))

/-- Reads one item and hands back the bytes after it. -/
def Item.read : Reader := readNested maxDepth

end UrReplay.Cbor
