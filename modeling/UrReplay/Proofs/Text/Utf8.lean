import UrReplay.Text.Utf8
/-!
# UrReplay.Proofs.Text.Utf8

The bytes of characters. A character in ASCII is one byte, its code point (`encodeChar_of_ascii`), and no byte of
any other character is in ASCII (`high_of_mem_encodeChar`). So a byte in ASCII at the front of a text is its first
character (`exists_of_encode_eq_cons`).
-/

namespace UrReplay.Utf8

theorem encodeChar_of_ascii {c : Char} (h : c.toNat < 128) :
    String.utf8EncodeChar c = [UInt8.ofNat c.toNat] := by
  have hval : c.val.toNat ≤ 127 := Nat.le_of_lt_succ h
  simp only [String.utf8EncodeChar, hval, if_true]
  rfl

theorem high_of_mem_encodeChar {c : Char} (h : 128 ≤ c.toNat) :
    ∀ b ∈ String.utf8EncodeChar c, 128 ≤ b.toNat := by
  have hval : ¬c.val.toNat ≤ 127 := Nat.not_le.2 h
  intro b hb
  simp only [String.utf8EncodeChar, hval, if_false] at hb
  split at hb
  · simp only [List.mem_cons, List.not_mem_nil, or_false] at hb
    rcases hb with rfl | rfl <;> rw [UInt8.toNat_ofNat'] <;> omega
  · split at hb
    · simp only [List.mem_cons, List.not_mem_nil, or_false] at hb
      rcases hb with rfl | rfl | rfl <;> rw [UInt8.toNat_ofNat'] <;> omega
    · simp only [List.mem_cons, List.not_mem_nil, or_false] at hb
      rcases hb with rfl | rfl | rfl | rfl <;> rw [UInt8.toNat_ofNat'] <;> omega

theorem encodeChar_of_not_ascii {c : Char} (h : 128 ≤ c.toNat) :
    ∃ b rest, String.utf8EncodeChar c = b :: rest ∧ 128 ≤ b.toNat := by
  have hpos : 0 < (String.utf8EncodeChar c).length := by
    rw [String.length_utf8EncodeChar]
    exact c.utf8Size_pos
  obtain ⟨b, rest, hbytes⟩ := List.exists_cons_of_length_pos hpos
  exact ⟨b, rest, hbytes, high_of_mem_encodeChar h b (hbytes ▸ List.mem_cons_self)⟩

/-- A byte in ASCII at the front of the bytes of a text is its first character. -/
theorem exists_of_encode_eq_cons {t : Text} {b : UInt8} {bytes : Bytes} (hb : b.toNat < 128)
    (h : encode t = b :: bytes) : ∃ rest, t = Char.ofNat b.toNat :: rest ∧ encode rest = bytes := by
  cases t with
  | nil => exact absurd h nofun
  | cons c rest =>
    rw [encode_cons] at h
    by_cases hc : c.toNat < 128
    · rw [encodeChar_of_ascii hc, List.singleton_append, List.cons.injEq] at h
      obtain ⟨rfl, rfl⟩ := h
      have htoNat : (UInt8.ofNat c.toNat).toNat = c.toNat :=
        UInt8.toNat_ofNat_of_lt' (Nat.lt_trans hc (by decide))
      exact ⟨rest, by rw [htoNat, Char.ofNat_toNat], rfl⟩
    · obtain ⟨first, more, hbytes, hfirst⟩ := encodeChar_of_not_ascii (Nat.le_of_not_lt hc)
      rw [hbytes, List.cons_append, List.cons.injEq] at h
      have := h.1 ▸ hfirst
      omega

theorem encode_inj {s t : Text} : encode s = encode t ↔ s = t := by
  refine ⟨fun h => ?_, fun h => h ▸ rfl⟩
  have hdecode := decode?_encode s
  rw [h, decode?_encode] at hdecode
  exact (Option.some.inj hdecode).symm

/-! ### Sizes -/

theorem size_append (s t : Text) : size (s ++ t) = size s + size t := by
  rw [size, encode_append, List.length_append, size, size]

theorem length_le_size (t : Text) : t.length ≤ size t := by
  induction t with
  | nil => exact Nat.le_refl 0
  | cons c t ih =>
    have hpos := c.utf8Size_pos
    rw [size, encode_cons, List.length_append, String.length_utf8EncodeChar, ← size, List.length_cons]
    omega

end UrReplay.Utf8
