import UrReplay.Proofs.Text.Lower
import UrReplay.Proofs.Text.Utf8
import UrReplay.Text.Hex
/-!
# UrReplay.Proofs.Text.Hex

A text is read as the bytes that it spells in either letter case, and no other text is
(`decode_eq_ok_iff`). Reading goes by UTF-8 bytes and spelling by characters; the two meet because a
character outside ASCII is no digit, and neither is any of its bytes.
-/

namespace UrReplay.Hex

/-! ### Digits -/

/-- The character that a byte stands for as a digit, in lower case. -/
def folded (b : UInt8) : Char := (Char.ofNat b.toNat).toLower

theorem digits_nodup : digits.Nodup := by decide

theorem digit_eq_getElem {n : Nat} (h : n < digits.length) : digit n = digits[n] :=
  List.getD_eq_getElem digits '0' h

/-- A digit is a visible ASCII character without letter case. -/
theorem digit_plain {n : Nat} (h : n < 16) :
    0x21 ≤ (digit n).toNat ∧ (digit n).toNat ≤ 0x7E ∧ (digit n).isUpper = false := by
  have hall : ∀ k : Fin 16, 0x21 ≤ (digit k).toNat ∧ (digit k).toNat ≤ 0x7E ∧
      (digit k).isUpper = false := by decide
  exact hall ⟨n, h⟩

theorem digitValue?_eq_some_iff {b : UInt8} {n : Nat} :
    digitValue? b = some n ↔ n < 16 ∧ folded b = digit n := by
  rw [digitValue?, List.findIdx?_eq_some_iff_getElem]
  constructor
  · rintro ⟨hn, heq, -⟩
    exact ⟨hn, ((digit_eq_getElem hn).trans (beq_iff_eq.1 heq)).symm⟩
  · rintro ⟨hn, heq⟩
    have hn' : n < digits.length := hn
    rw [digit_eq_getElem hn'] at heq
    refine ⟨hn', beq_iff_eq.2 heq.symm, ?_⟩
    intro k hk hfirst
    have hsame : digits[k] = digits[n] := (beq_iff_eq.1 hfirst).trans heq
    exact absurd (digits_nodup.getElem_inj_iff.1 hsame) hk.ne

theorem encode_cons (b : UInt8) (bytes : Bytes) :
    encode (b :: bytes) = digit (b.toNat / 16) :: digit (b.toNat % 16) :: encode bytes := rfl

theorem exists_of_mem_encode {bytes : Bytes} {c : Char} (h : c ∈ encode bytes) :
    ∃ n < 16, c = digit n := by
  obtain ⟨b, -, hc⟩ := List.mem_flatMap.1 h
  have hb : b.toNat < 256 := b.toNat_lt_size
  simp only [List.mem_cons, List.not_mem_nil, or_false] at hc
  rcases hc with rfl | rfl
  · exact ⟨_, by omega, rfl⟩
  · exact ⟨_, Nat.mod_lt _ (by decide), rfl⟩

theorem encode_eq_nil_iff {bytes : Bytes} : encode bytes = [] ↔ bytes = [] := by
  cases bytes with
  | nil => exact ⟨fun _ => rfl, fun _ => rfl⟩
  | cons b bytes =>
    rw [encode_cons]
    exact ⟨nofun, nofun⟩

theorem lower_encode (bytes : Bytes) : (encode bytes).lower = encode bytes := by
  refine Text.lower_eq_self fun c hc => ?_
  obtain ⟨n, hn, rfl⟩ := exists_of_mem_encode hc
  exact (digit_plain hn).2.2

/-! ### Bytes of characters -/

theorem folded_ofNat {c : Char} (h : c.toNat < 128) : folded (UInt8.ofNat c.toNat) = c.toLower := by
  have hbyte : (UInt8.ofNat c.toNat).toNat = c.toNat := by
    rw [UInt8.toNat_ofNat']
    omega
  rw [folded, hbyte, Char.ofNat_toNat]

/-- Folding letters does not lead into ASCII. -/
theorem not_ascii_toLower {c : Char} (h : 128 ≤ c.toNat) : c.toLower = c := by
  refine Char.toLower_eq_of_not_isUpper fun hupper => ?_
  have hrange : 0x41 ≤ c.toNat ∧ c.toNat ≤ 0x5A := by
    simpa [Char.isUpper, UInt32.le_iff_toNat_le] using hupper
  omega

theorem folded_of_not_ascii {b : UInt8} (h : 128 ≤ b.toNat) : 128 ≤ (folded b).toNat := by
  have hb := b.toNat_lt_size
  have hvalid : b.toNat.isValidChar := Or.inl (hb.trans (by decide))
  have htoNat : (Char.ofNat b.toNat).toNat = b.toNat := by rw [Char.toNat_ofNat, if_pos hvalid]
  rw [folded, not_ascii_toLower (by omega), htoNat]
  exact h

/-- The bytes of a text fold to an ASCII text if its characters do. -/
theorem map_folded_encode {s : Text} (hs : ∀ c ∈ s, c.toNat < 128) (t : Text) :
    (Utf8.encode t).map folded = s ↔ t.lower = s := by
  induction t generalizing s with
  | nil => exact Iff.rfl
  | cons c t ih =>
    rw [Utf8.encode_cons, Text.lower_cons]
    by_cases hc : c.toNat < 128
    · rw [Utf8.encodeChar_of_ascii hc, List.singleton_append, List.map_cons, folded_ofNat hc]
      cases s with
      | nil => exact ⟨nofun, nofun⟩
      | cons d s => rw [List.cons.injEq, List.cons.injEq, ih fun x hx => hs x (by simp [hx])]
    · have hc : 128 ≤ c.toNat := Nat.le_of_not_lt hc
      obtain ⟨b, rest, hbytes, hb⟩ := Utf8.encodeChar_of_not_ascii hc
      rw [hbytes, List.cons_append, List.map_cons, not_ascii_toLower hc]
      have hfolded := folded_of_not_ascii hb
      constructor
      · intro heq
        have := hs (folded b) (heq ▸ List.mem_cons_self)
        omega
      · intro heq
        have := hs c (heq ▸ List.mem_cons_self)
        omega

/-! ### Reading -/

theorem ofNat_eq_iff {high low : Nat} (hhigh : high < 16) (hlow : low < 16) {b : UInt8} :
    UInt8.ofNat (16 * high + low) = b ↔ high = b.toNat / 16 ∧ low = b.toNat % 16 := by
  have hb : b.toNat < 256 := b.toNat_lt_size
  rw [← UInt8.toNat_inj, UInt8.toNat_ofNat']
  omega

theorem lt_of_digitValue? {b : UInt8} {n : Nat} (h : digitValue? b = some n) : n < 16 :=
  (digitValue?_eq_some_iff.1 h).1

/-- A pair of digits is the first byte, and what follows them the others. -/
theorem decodePairs_cons_cons (position : Nat) (high low b : UInt8) (rest bytes : Bytes) :
    decodePairs position (high :: low :: rest) = .ok (b :: bytes) ↔
      digitValue? high = some (b.toNat / 16) ∧ digitValue? low = some (b.toNat % 16) ∧
        decodePairs (position + 2) rest = .ok bytes := by
  rw [decodePairs]
  cases hhigh : digitValue? high with
  | none => simp
  | some h =>
    cases hlow : digitValue? low with
    | none => simp
    | some l =>
      have hbyte : UInt8.ofNat (16 * h + l) = b ↔ h = b.toNat / 16 ∧ l = b.toNat % 16 :=
        ofNat_eq_iff (lt_of_digitValue? hhigh) (lt_of_digitValue? hlow)
      cases decodePairs (position + 2) rest with
      | error e => simp
      | ok rest => simp only [Except.ok.injEq, List.cons.injEq, hbyte, Option.some.injEq, and_assoc]

theorem decodePairs_ne_nil (position : Nat) (high low : UInt8) (rest : Bytes) :
    decodePairs position (high :: low :: rest) ≠ .ok [] := by
  rw [decodePairs]
  cases digitValue? high with
  | none => simp
  | some h =>
    cases digitValue? low with
    | none => simp
    | some l => cases decodePairs (position + 2) rest <;> simp

/-- Pairs of bytes are read as the bytes that they fold to the digits of. -/
theorem decodePairs_eq_ok_iff : ∀ {position : Nat} {text bytes : Bytes},
    decodePairs position text = .ok bytes ↔ text.map folded = encode bytes
  | position, [], bytes => by
    rw [decodePairs, Except.ok.injEq, eq_comm, ← encode_eq_nil_iff, eq_comm, List.map_nil]
  | position, [b], bytes => by
    refine ⟨nofun, fun h => ?_⟩
    have hlength := congrArg List.length h
    cases bytes with
    | nil => exact absurd hlength (by simp [encode])
    | cons b' bytes => exact absurd hlength (by simp [encode_cons])
  | position, high :: low :: rest, [] =>
    ⟨fun h => absurd h (decodePairs_ne_nil position high low rest), nofun⟩
  | position, high :: low :: rest, b :: bytes => by
    have hb : b.toNat < 256 := b.toNat_lt_size
    have hhigh : b.toNat / 16 < 16 := by omega
    have hlow : b.toNat % 16 < 16 := Nat.mod_lt _ (by decide)
    rw [decodePairs_cons_cons, digitValue?_eq_some_iff, digitValue?_eq_some_iff,
      decodePairs_eq_ok_iff, encode_cons, List.map_cons, List.map_cons, List.cons.injEq,
      List.cons.injEq]
    simp only [hhigh, hlow, true_and]

theorem length_encode (bytes : Bytes) : (encode bytes).length = 2 * bytes.length := by
  induction bytes with
  | nil => rfl
  | cons b bytes ih =>
    rw [encode_cons, List.length_cons, List.length_cons, ih, List.length_cons]
    omega

/-- A text is read as the bytes whose digits it consists of, in either letter case. -/
theorem decode_eq_ok_iff {t : Text} {bytes : Bytes} :
    decode t = .ok bytes ↔ t.lower = encode bytes := by
  have hascii : ∀ c ∈ encode bytes, c.toNat < 128 := by
    intro c hc
    obtain ⟨n, hn, rfl⟩ := exists_of_mem_encode hc
    have := (digit_plain hn).2.1
    omega
  rw [← map_folded_encode hascii, decode]
  split
  · rename_i hodd
    refine ⟨nofun, fun h => ?_⟩
    have hlength := congrArg List.length h
    rw [List.length_map, length_encode] at hlength
    omega
  · exact decodePairs_eq_ok_iff

end UrReplay.Hex
