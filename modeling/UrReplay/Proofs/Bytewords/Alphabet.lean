import UrReplay.Bytewords.Alphabet
import UrReplay.Proofs.Text.Lower
/-!
# UrReplay.Proofs.Bytewords.Alphabet

The alphabet is unambiguous. No two words have the same outer letters (`letterPairs_nodup`), so a
byte is told from its word (`byteOfWord?_eq_some_iff`), and from the outer letters alone
(`byteOfLetters?_eq_some_iff`). All letters are small ones of the ASCII alphabet.
-/

namespace UrReplay.Bytewords

/-! ### Distinct words -/

/-- A pair of small letters as one number, so that pairs are compared as numbers. -/
def pairCode (pair : UInt8 × UInt8) : Nat := 26 * (pair.1.toNat - 97) + (pair.2.toNat - 97)

/-- Whether numbers are distinct. -/
def areDistinct : List Nat → Bool
  | [] => true
  | n :: l => l.all (fun k => !Nat.beq n k) && areDistinct l

theorem nodup_of_areDistinct {l : List Nat} (h : areDistinct l = true) : l.Nodup := by
  induction l with
  | nil => exact List.nodup_nil
  | cons n l ih =>
    rw [areDistinct, Bool.and_eq_true, List.all_eq_true] at h
    refine List.nodup_cons.2 ⟨?_, ih h.2⟩
    intro hn
    have hne := h.1 n hn
    rw [Nat.beq_refl] at hne
    exact absurd hne (by decide)

set_option maxRecDepth 10000 in
/-- No two words have the same outer letters. -/
theorem letterPairs_nodup : letterPairs.Nodup := by
  have hdistinct : areDistinct (letterPairs.map pairCode) = true := by
    simp only [letterPairs, alphabet, spellings, List.map_cons, List.map_nil, String.reduceToList]
    decide +kernel
  exact (nodup_of_areDistinct hdistinct).of_map _

/-- No two words are the same. -/
theorem alphabet_nodup : alphabet.Nodup := letterPairs_nodup.of_map _

theorem length_letterPairs : letterPairs.length = 256 := by
  rw [letterPairs, List.length_map, length_alphabet]

/-! ### Letters -/

/-- Whether a byte is a small letter. -/
def isSmallLetter (b : UInt8) : Bool := 97 ≤ b.toNat && b.toNat ≤ 122

set_option maxRecDepth 10000 in
theorem isSmallLetter_of_mem_letterPairs {pair : UInt8 × UInt8} (h : pair ∈ letterPairs) :
    isSmallLetter pair.1 = true ∧ isSmallLetter pair.2 = true := by
  have hall :
      letterPairs.all (fun pair => isSmallLetter pair.1 && isSmallLetter pair.2) = true := by
    simp only [letterPairs, alphabet, spellings, List.map_cons, List.map_nil, String.reduceToList]
    decide +kernel
  simpa using List.all_eq_true.1 hall pair h

set_option maxRecDepth 10000 in
theorem isLower_of_mem_alphabet {w : Text} (h : w ∈ alphabet) : ∀ c ∈ w, c.isLower = true := by
  have hall : alphabet.all (fun w => w.all Char.isLower) = true := by
    simp only [alphabet, spellings, List.map_cons, List.map_nil, String.reduceToList]
    decide +kernel
  exact List.all_eq_true.1 (List.all_eq_true.1 hall w h)

/-! ### Finding a byte -/

/-- In a list of distinct codes, one for each byte, a byte is found from its code. -/
theorem idxOf?_map_ofNat_eq_some_iff {α : Type} [BEq α] [LawfulBEq α] {codes : List α}
    (hnodup : codes.Nodup) (hlength : codes.length = 256) {code : α} {b : UInt8} :
    (codes.idxOf? code).map UInt8.ofNat = some b ↔ codes[b.toNat]? = some code := by
  constructor
  · intro h
    obtain ⟨i, hi, rfl⟩ := Option.map_eq_some_iff.1 h
    obtain ⟨hlt, hget, -⟩ := List.idxOf?_eq_some_iff.1 hi
    have hbyte : (UInt8.ofNat i).toNat = i := UInt8.toNat_ofNat_of_lt' (hlt.trans_eq hlength)
    rw [hbyte, List.getElem?_eq_getElem hlt, hget]
  · intro h
    obtain ⟨hlt, hget⟩ := List.getElem?_eq_some_iff.1 h
    have hindex : codes.idxOf? code = some b.toNat := by
      rw [List.idxOf?_eq_some_iff]
      refine ⟨hlt, hget, ?_⟩
      -- No earlier byte has this code, because no two bytes have the same.
      intro j hj heq
      rw [← hget, hnodup.getElem_inj_iff] at heq
      omega
    rw [hindex, Option.map_some, UInt8.ofNat_toNat]

/-- A table holds what the list that it was made from has at a byte. -/
theorem getElem?_of_table {α : Type} {codes : List α} (h : codes.toArray.size = 256) (b : UInt8) :
    codes[b.toNat]? = some ((⟨codes.toArray, h⟩ : Vector α 256).get b.toFin) := by
  have hlength : codes.length = 256 := List.size_toArray.symm.trans h
  have hlt : b.toNat < codes.length := hlength ▸ b.toNat_lt_size
  rw [List.getElem?_eq_getElem hlt]
  rfl

theorem getElem?_letterPairs (b : UInt8) : letterPairs[b.toNat]? = some (letters b) :=
  getElem?_of_table _ b

theorem getElem?_alphabet (b : UInt8) : alphabet[b.toNat]? = some (word b) :=
  getElem?_of_table _ b

/-- The byte of a pair of letters is the one whose word has them outside. -/
theorem byteOfLetters?_eq_some_iff {pair : UInt8 × UInt8} {b : UInt8} :
    byteOfLetters? pair = some b ↔ pair = letters b := by
  rw [byteOfLetters?, idxOf?_map_ofNat_eq_some_iff letterPairs_nodup length_letterPairs,
    getElem?_letterPairs, Option.some.injEq, eq_comm]

/-- The byte of a word is the one that it stands for. -/
theorem byteOfWord?_eq_some_iff {w : Text} {b : UInt8} : byteOfWord? w = some b ↔ w = word b := by
  rw [byteOfWord?, idxOf?_map_ofNat_eq_some_iff alphabet_nodup length_alphabet, getElem?_alphabet,
    Option.some.injEq, eq_comm]

theorem isSmallLetter_letters (b : UInt8) :
    isSmallLetter (letters b).1 = true ∧ isSmallLetter (letters b).2 = true :=
  isSmallLetter_of_mem_letterPairs (List.mem_of_getElem? (getElem?_letterPairs b))

theorem isLower_of_mem_word {b : UInt8} {c : Char} (h : c ∈ word b) : c.isLower = true :=
  isLower_of_mem_alphabet (List.mem_of_getElem? (getElem?_alphabet b)) c h

end UrReplay.Bytewords
