import UrReplay.Bytewords.Codec
import UrReplay.Proofs.Bytewords.Alphabet
import UrReplay.Proofs.Except
import UrReplay.Proofs.Text.Utf8
/-!
# UrReplay.Proofs.Bytewords.Minimal

The minimal style: a body of outer letters is read as the bytes that they were written for, and no
other body is (`read_minimal_eq_ok_iff`). All letters are small ones of the ASCII alphabet, so each is
one byte in UTF-8.
-/

namespace UrReplay.Bytewords

/-! ### Letters as characters -/

theorem toNat_letter (l : UInt8) : (Char.ofNat l.toNat).toNat = l.toNat := by
  have hlt := l.toNat_lt_size
  have hvalid : l.toNat.isValidChar := Or.inl (hlt.trans (by decide))
  rw [Char.toNat_ofNat, if_pos hvalid]

theorem isLower_letter {l : UInt8} (h : isSmallLetter l = true) : (Char.ofNat l.toNat).isLower = true := by
  have hl := toNat_letter l
  simp only [isSmallLetter, Bool.and_eq_true, decide_eq_true_eq] at h
  simp only [Char.isLower, Bool.and_eq_true, decide_eq_true_eq, UInt32.le_iff_toNat_le, ge_iff_le]
  show 97 ≤ (Char.ofNat l.toNat).toNat ∧ (Char.ofNat l.toNat).toNat ≤ 122
  omega

theorem utf8EncodeChar_letter {l : UInt8} (h : isSmallLetter l = true) :
    String.utf8EncodeChar (Char.ofNat l.toNat) = [l] := by
  have hl := toNat_letter l
  simp only [isSmallLetter, Bool.and_eq_true, decide_eq_true_eq] at h
  rw [Utf8.encodeChar_of_ascii (by omega), hl, UInt8.ofNat_toNat]

/-! ### Reading back -/

/-- The letters of bytes, one pair after another. -/
def letterBytes (bytes : Bytes) : Bytes := bytes.flatMap fun b => [(letters b).1, (letters b).2]

theorem letterBytes_cons (b : UInt8) (bytes : Bytes) :
    letterBytes (b :: bytes) = (letters b).1 :: (letters b).2 :: letterBytes bytes := rfl

theorem isLower_of_mem_joinLetters {bytes : Bytes} {c : Char} (h : c ∈ joinLetters bytes) :
    c.isLower = true := by
  obtain ⟨b, -, hc⟩ := List.mem_flatMap.1 h
  obtain ⟨hfirst, hlast⟩ := isSmallLetter_letters b
  simp only [List.mem_cons, List.not_mem_nil, or_false] at hc
  rcases hc with rfl | rfl
  · exact isLower_letter hfirst
  · exact isLower_letter hlast

theorem encode_joinLetters (bytes : Bytes) : Utf8.encode (joinLetters bytes) = letterBytes bytes := by
  induction bytes with
  | nil => rfl
  | cons b bytes ih =>
    obtain ⟨hfirst, hlast⟩ := isSmallLetter_letters b
    have hjoin : joinLetters (b :: bytes) = Char.ofNat (letters b).1.toNat ::
        Char.ofNat (letters b).2.toNat :: joinLetters bytes := rfl
    rw [hjoin, Utf8.encode_cons, Utf8.encode_cons, utf8EncodeChar_letter hfirst,
      utf8EncodeChar_letter hlast, ih]
    rfl

theorem length_letterBytes (bytes : Bytes) : (letterBytes bytes).length = 2 * bytes.length := by
  induction bytes with
  | nil => rfl
  | cons b bytes ih =>
    show (letterBytes bytes).length + 1 + 1 = 2 * (bytes.length + 1)
    omega

/-- Two letters come first if the first byte is the one whose word has them outside. -/
theorem cons_cons_eq_letterBytes_iff {first last : UInt8} {rest bytes : Bytes} :
    first :: last :: rest = letterBytes bytes ↔
      ∃ b bytes', bytes = b :: bytes' ∧ byteOfLetters? (first, last) = some b ∧
        rest = letterBytes bytes' := by
  constructor
  · intro h
    cases bytes with
    | nil => exact absurd h (List.cons_ne_nil _ _)
    | cons b bytes =>
        rw [letterBytes_cons, List.cons.injEq, List.cons.injEq] at h
        obtain ⟨rfl, rfl, hrest⟩ := h
        exact ⟨b, bytes, rfl, byteOfLetters?_eq_some_iff.2 rfl, hrest⟩
  · rintro ⟨b, bytes', rfl, hpair, rfl⟩
    obtain ⟨rfl, rfl⟩ := Prod.mk.inj (byteOfLetters?_eq_some_iff.1 hpair)
    rfl

/-- Letters that pair up are read as the bytes that they were written for, and as no others. -/
theorem readLetters_eq_ok_iff {codes bytes : Bytes} (heven : codes.length % 2 = 0) :
    readLetters codes = .ok bytes ↔ codes = letterBytes bytes := by
  fun_induction readLetters codes generalizing bytes with
  | case1 first last rest hnone =>
      rw [cons_cons_eq_letterBytes_iff, hnone]
      simp
  | case2 first last rest b hsome ih =>
      have hrest : rest.length % 2 = 0 := by
        rw [List.length_cons, List.length_cons] at heven
        omega
      rw [cons_cons_eq_letterBytes_iff, hsome, Except.map_eq_ok_iff]
      constructor
      · rintro ⟨bytes', hread, rfl⟩
        exact ⟨b, bytes', rfl, rfl, (ih hrest).1 hread⟩
      · rintro ⟨_, bytes', rfl, ⟨⟩, hread⟩
        exact ⟨bytes', (ih hrest).2 hread, rfl⟩
  | case3 codes hshort =>
      -- Less than two letters that pair up are none.
      have hnil : codes = [] := by
        cases codes with
        | nil => rfl
        | cons first rest =>
          cases rest with
          | nil => exact absurd heven Nat.one_ne_zero
          | cons last rest => exact absurd rfl (hshort first last rest)
      rw [hnil, Except.ok.injEq, eq_comm, eq_comm (a := []), ← List.length_eq_zero_iff,
        ← List.length_eq_zero_iff, length_letterBytes]
      omega

/-- A body is read as the bytes whose outer letters it consists of. -/
theorem read_minimal_eq_ok_iff {body : Text} {bytes : Bytes} :
    read .minimal body = .ok bytes ↔ body = joinLetters bytes := by
  rw [← Utf8.encode_inj, encode_joinLetters, read]
  split
  · rename_i hodd
    refine ⟨fun h => absurd h (by simp), fun h => ?_⟩
    rw [h, length_letterBytes] at hodd
    omega
  · rename_i heven
    exact readLetters_eq_ok_iff (by omega)

end UrReplay.Bytewords
