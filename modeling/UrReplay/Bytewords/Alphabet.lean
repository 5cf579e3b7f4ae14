import UrReplay.Bytes
import UrReplay.Text.Basic
/-!
# UrReplay.Bytewords.Alphabet

The alphabet of 256 four-letter words, one for each byte. The words are distinct, and so are the
pairs of their first and last letters, so a byte can be told from its word and from those two
letters alone.
-/

namespace UrReplay.Bytewords

/-- The words as they are spelled, in the order of the bytes they stand for. -/
def spellings : List String :=
  [ "able", "acid", "also", "apex", "aqua", "arch", "atom", "aunt", "away", "axis",
    "back", "bald", "barn", "belt", "beta", "bias", "blue", "body", "brag", "brew",
    "bulb", "buzz", "calm", "cash", "cats", "chef", "city", "claw", "code", "cola",
    "cook", "cost", "crux", "curl", "cusp", "cyan", "dark", "data", "days", "deli",
    "dice", "diet", "door", "down", "draw", "drop", "drum", "dull", "duty", "each",
    "easy", "echo", "edge", "epic", "even", "exam", "exit", "eyes", "fact", "fair",
    "fern", "figs", "film", "fish", "fizz", "flap", "flew", "flux", "foxy", "free",
    "frog", "fuel", "fund", "gala", "game", "gear", "gems", "gift", "girl", "glow",
    "good", "gray", "grim", "guru", "gush", "gyro", "half", "hang", "hard", "hawk",
    "heat", "help", "high", "hill", "holy", "hope", "horn", "huts", "iced", "idea",
    "idle", "inch", "inky", "into", "iris", "iron", "item", "jade", "jazz", "join",
    "jolt", "jowl", "judo", "jugs", "jump", "junk", "jury", "keep", "keno", "kept",
    "keys", "kick", "kiln", "king", "kite", "kiwi", "knob", "lamb", "lava", "lazy",
    "leaf", "legs", "liar", "limp", "lion", "list", "logo", "loud", "love", "luau",
    "luck", "lung", "main", "many", "math", "maze", "memo", "menu", "meow", "mild",
    "mint", "miss", "monk", "nail", "navy", "need", "news", "next", "noon", "note",
    "numb", "obey", "oboe", "omit", "onyx", "open", "oval", "owls", "paid", "part",
    "peck", "play", "plus", "poem", "pool", "pose", "puff", "puma", "purr", "quad",
    "quiz", "race", "ramp", "real", "redo", "rich", "road", "rock", "roof", "ruby",
    "ruin", "runs", "rust", "safe", "saga", "scar", "sets", "silk", "skew", "slot",
    "soap", "solo", "song", "stub", "surf", "swan", "taco", "task", "taxi", "tent",
    "tied", "time", "tiny", "toil", "tomb", "toys", "trip", "tuna", "twin", "ugly",
    "undo", "unit", "urge", "user", "vast", "very", "veto", "vial", "vibe", "view",
    "visa", "void", "vows", "wall", "wand", "warm", "wasp", "wave", "waxy", "webs",
    "what", "when", "whiz", "wolf", "work", "yank", "yawn", "yell", "yoga", "yurt",
    "zaps", "zero", "zest", "zinc", "zone", "zoom" ]

/-- The words in the order of the bytes they stand for. -/
def alphabet : List Text := spellings.map String.toList

theorem length_alphabet : alphabet.length = 256 := by
  rw [alphabet, List.length_map]
  decide +kernel

/-- The alphabet as a table. -/
def words : Vector Text 256 := ⟨alphabet.toArray, length_alphabet⟩

/-- The word for a byte. -/
def word (b : UInt8) : Text := words.get b.toFin

/-- The byte that a word stands for. -/
def byteOfWord? (w : Text) : Option UInt8 := (alphabet.idxOf? w).map UInt8.ofNat

/-! ### First and last letters -/

/-- The first and the last letter of a word, as bytes. -/
def outerLetters (w : Text) : UInt8 × UInt8 :=
  ((w.headD ' ').toUInt8, (w.getLastD ' ').toUInt8)

/-- The first and last letters of every word, in the order of the alphabet. -/
def letterPairs : List (UInt8 × UInt8) := alphabet.map outerLetters

/-- The letter pairs as a table. -/
def pairs : Vector (UInt8 × UInt8) 256 :=
  ⟨letterPairs.toArray, by simp [letterPairs, length_alphabet]⟩

/-- The first and last letter of the word for a byte. -/
def letters (b : UInt8) : UInt8 × UInt8 := pairs.get b.toFin

/-- The byte whose word has these first and last letters. -/
def byteOfLetters? (pair : UInt8 × UInt8) : Option UInt8 :=
  (letterPairs.idxOf? pair).map UInt8.ofNat

end UrReplay.Bytewords
