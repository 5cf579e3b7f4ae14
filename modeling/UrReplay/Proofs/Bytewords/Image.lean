import UrReplay.Proofs.BigEndian
import UrReplay.Proofs.Bytewords.Minimal
import UrReplay.Proofs.Text.Split
/-!
# UrReplay.Proofs.Bytewords.Image

Reading accepts exactly what writing produces, in every style and up to letter case (`decode_exact`).

Each step of reading is inverse to the step of writing that it undoes, and takes nothing else: words
are cut apart where they were joined (`read_eq_ok_iff`), and of the bytes that they stand for, the last
four are the check value of the others (`unchecked_eq_ok_iff`).
-/

namespace UrReplay.Bytewords

variable {style : Style} {body : Text} {payload bytes check : Bytes}

/-! ### Words -/

theorem readWords_eq_ok_iff {ws : List Text} :
    readWords ws = .ok bytes ↔ ws = bytes.map word := by
  fun_induction readWords ws generalizing bytes with
  | case1 => simp [eq_comm]
  | case2 w rest hnone =>
      refine ⟨fun h => absurd h (by simp), fun h => ?_⟩
      cases bytes with
      | nil => exact absurd h (List.cons_ne_nil _ _)
      | cons b bytes =>
          rw [byteOfWord?_eq_some_iff.2 (List.cons.inj h).1] at hnone
          exact absurd hnone (Option.some_ne_none b)
  | case3 w rest b hsome ih =>
      obtain rfl := byteOfWord?_eq_some_iff.1 hsome
      rw [Except.map_eq_ok_iff]
      constructor
      · rintro ⟨bytes', hread, rfl⟩
        rw [ih.1 hread]
        rfl
      · intro h
        cases bytes with
        | nil => exact absurd h (List.cons_ne_nil _ _)
        | cons b' bytes =>
            obtain ⟨hword, hrest⟩ := List.cons.inj h
            rw [byteOfWord?_eq_some_iff.2 hword, Option.some.injEq] at hsome
            exact ⟨bytes, ih.2 hrest, by rw [hsome]⟩

/-- Joined words are cut apart again, because the separator is no letter. -/
theorem readWords_split_eq_ok_iff {separator : Char} (hseparator : separator.isLower = false)
    (hbytes : bytes ≠ []) :
    readWords (body.split separator) = .ok bytes ↔ body = joinWords separator bytes := by
  rw [readWords_eq_ok_iff, joinWords]
  constructor
  · intro h
    rw [← h, Text.intercalate_split]
  · rintro rfl
    refine Text.split_intercalate (by simpa using hbytes) ?_
    intro w hw hmem
    obtain ⟨b, -, rfl⟩ := List.mem_map.1 hw
    rw [isLower_of_mem_word hmem] at hseparator
    exact absurd hseparator (by decide)

/-- The words of bytes, as a style writes them. -/
def spell : Style → Bytes → Text
  | .standard, bytes => joinWords ' ' bytes
  | .uri, bytes => joinWords '-' bytes
  | .minimal, bytes => joinLetters bytes

theorem encode_eq_spell (style : Style) (payload : Bytes) :
    encode style payload = spell style (checked payload) := by
  cases style <;> rfl

/-- A body is read as the bytes whose words it consists of. -/
theorem read_eq_ok_iff (hbytes : bytes ≠ []) :
    read style body = .ok bytes ↔ body = spell style bytes := by
  cases style with
  | standard => exact readWords_split_eq_ok_iff (by decide) hbytes
  | uri => exact readWords_split_eq_ok_iff (by decide) hbytes
  | minimal => exact read_minimal_eq_ok_iff

theorem lower_eq_self_of_isLower {t : Text} (h : ∀ c ∈ t, c.isLower = true) : t.lower = t :=
  Text.lower_eq_self fun c hc =>
    Bool.eq_false_iff.2 fun hupper => Char.not_isLower_of_isUpper hupper (h c hc)

theorem lower_joinWords {separator : Char} (hseparator : separator.toLower = separator)
    (bytes : Bytes) : (joinWords separator bytes).lower = joinWords separator bytes := by
  have hword (b : UInt8) : (word b).lower = word b :=
    lower_eq_self_of_isLower fun c hc => isLower_of_mem_word hc
  have hwords : (bytes.map word).map Text.lower = bytes.map word := by
    rw [List.map_map]
    exact List.map_congr_left fun b _ => hword b
  rw [joinWords, Text.lower_intercalate, hseparator, hwords]

/-- What is written has no capital letters. -/
theorem lower_spell (style : Style) (bytes : Bytes) :
    (spell style bytes).lower = spell style bytes := by
  cases style with
  | standard => exact lower_joinWords (by decide) bytes
  | uri => exact lower_joinWords (by decide) bytes
  | minimal => exact lower_eq_self_of_isLower fun c hc => isLower_of_mem_joinLetters hc

/-! ### Check values -/

/-- Bytes are accepted as a payload with its check value if the last four spell it. -/
theorem unchecked_append (hpayload : payload ≠ []) (hcheck : check.length = checksumSize) :
    unchecked (payload ++ check) =
      if UInt32.ofNat (Bytes.value check) = Crc32.checksum payload then .ok payload
      else .error (.checksum (UInt32.ofNat (Bytes.value check)) (Crc32.checksum payload)) := by
  have hpos := List.length_pos_iff.2 hpayload
  have hlength : (payload ++ check).length = payload.length + checksumSize := by
    rw [List.length_append, hcheck]
  have hsplit : (payload ++ check).length - checksumSize = payload.length := by omega
  rw [unchecked, if_neg (by omega), hsplit, List.take_left, List.drop_left]

/-- Four bytes carry a check value if they are its bytes. -/
theorem ofNat_value_eq_iff {crc : UInt32} (hcheck : check.length = checksumSize) :
    UInt32.ofNat (Bytes.value check) = crc ↔ check = Bytes.bigEndian checksumSize crc.toNat := by
  have hlt : Bytes.value check < UInt32.size := by
    have hlt := Bytes.value_lt check
    rwa [hcheck] at hlt
  have hvalue : Bytes.value (Bytes.bigEndian checksumSize crc.toNat) = crc.toNat := by
    rw [Bytes.value_bigEndian]
    exact Nat.mod_eq_of_lt crc.toNat_lt_size
  rw [← UInt32.toNat_inj, UInt32.toNat_ofNat_of_lt' hlt,
    ← Bytes.value_inj (hcheck.trans (Bytes.length_bigEndian _ _).symm), hvalue]

theorem unchecked_eq_ok_iff :
    unchecked bytes = .ok payload ↔ payload ≠ [] ∧ bytes = checked payload := by
  constructor
  · intro h
    have hlong : checksumSize < bytes.length := by
      by_contra hshort
      rw [unchecked, if_pos (Nat.le_of_not_lt hshort)] at h
      exact absurd h (by simp)
    have hne : bytes.take (bytes.length - checksumSize) ≠ [] := by
      rw [← List.length_pos_iff, List.length_take]
      omega
    have hcheck : (bytes.drop (bytes.length - checksumSize)).length = checksumSize := by
      rw [List.length_drop]
      omega
    rw [← List.take_append_drop (bytes.length - checksumSize) bytes, unchecked_append hne hcheck] at h
    split at h
    · rename_i hsame
      obtain rfl := Except.ok.inj h
      refine ⟨hne, ?_⟩
      rw [checked, ← (ofNat_value_eq_iff hcheck).1 hsame, List.take_append_drop]
    · exact absurd h (by simp)
  · rintro ⟨hpayload, rfl⟩
    have hlength := Bytes.length_bigEndian checksumSize (Crc32.checksum payload).toNat
    rw [checked, unchecked_append hpayload hlength, if_pos ((ofNat_value_eq_iff hlength).2 rfl)]

/-! ### Bodies -/

theorem checked_ne_nil (payload : Bytes) : checked payload ≠ [] := by
  rw [checked, ← List.length_pos_iff, List.length_append, Bytes.length_bigEndian]
  exact Nat.lt_add_left _ (by decide)

/-- What is read as a payload is what the payload is written as, up to letter case. -/
theorem decode_eq_ok_iff :
    decode style body = .ok payload ↔ payload ≠ [] ∧ body.lower = encode style payload := by
  rw [decode, Except.bind_eq_ok_iff, encode_eq_spell]
  constructor
  · rintro ⟨bytes, hread, hunchecked⟩
    obtain ⟨hpayload, rfl⟩ := unchecked_eq_ok_iff.1 hunchecked
    exact ⟨hpayload, (read_eq_ok_iff (checked_ne_nil payload)).1 hread⟩
  · rintro ⟨hpayload, hbody⟩
    exact ⟨_, (read_eq_ok_iff (checked_ne_nil payload)).2 hbody,
      unchecked_eq_ok_iff.2 ⟨hpayload, rfl⟩⟩

theorem decode_encode (hpayload : payload ≠ []) :
    decode style (encode style payload) = .ok payload := by
  rw [decode_eq_ok_iff, encode_eq_spell, lower_spell]
  exact ⟨hpayload, rfl⟩

/-- What is written for the empty payload is its check value alone, which no reading accepts. -/
theorem decode_encode_nil : decode style (encode style []) = .error (.tooShort checksumSize) := by
  rw [decode, encode_eq_spell, lower_spell, (read_eq_ok_iff (checked_ne_nil [])).2 rfl]
  show unchecked (checked []) = _
  have hlength : (checked []).length = checksumSize := Bytes.length_bigEndian _ _
  rw [unchecked, hlength, if_pos (Nat.le_refl _)]

/-- Reading accepts exactly what writing produces. A text is read as a payload if and only if the
payload is not empty and the text is what it is written as, up to letter case. So reading undoes
writing, two texts are read as one payload only if they differ in letter case alone, and any text
that is not written for a payload is refused. -/
theorem decode_exact (style : Style) :
    (∀ t payload, decode style t = .ok payload ↔ payload ≠ [] ∧ t.lower = encode style payload) ∧
      (∀ payload, payload ≠ [] → decode style (encode style payload) = .ok payload) ∧
      (∀ s t payload, decode style s = .ok payload → decode style t = .ok payload →
        s.lower = t.lower) ∧
      ∀ t, (∀ payload, payload ≠ [] → t.lower ≠ encode style payload) →
        ∃ error, decode style t = .error error := by
  refine ⟨fun t payload => decode_eq_ok_iff, fun payload => decode_encode, ?_, ?_⟩
  · intro s t payload hs ht
    exact (decode_eq_ok_iff.1 hs).2.trans (decode_eq_ok_iff.1 ht).2.symm
  · intro t himage
    cases hdecode : decode style t with
    | error error => exact ⟨error, rfl⟩
    | ok payload =>
        obtain ⟨hpayload, hbody⟩ := decode_eq_ok_iff.1 hdecode
        exact absurd hbody (himage payload hpayload)

/-- A payload of one byte, in capital letters. -/
theorem decode_exact_capitals :
    let body : Text := ['A', 'E', 'T', 'D', 'A', 'O', 'W', 'S', 'L', 'G']
    (([0] : Bytes) ≠ [] ∧ body.lower = encode .minimal [0]) ∧ decode .minimal body = .ok [0] := by
  intro body
  have hbody : ([0] : Bytes) ≠ [] ∧ body.lower = encode .minimal [0] := by decide +kernel
  exact ⟨hbody, ((decode_exact .minimal).1 body [0]).2 hbody⟩

end UrReplay.Bytewords
