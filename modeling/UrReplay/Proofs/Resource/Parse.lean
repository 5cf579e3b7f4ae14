import UrReplay.Proofs.Bytewords.Minimal
import UrReplay.Proofs.Resource.Grammar
import UrReplay.Resource.Decoder
import UrReplay.Resource.Encoder
/-!
# UrReplay.Proofs.Resource.Parse

What a text is parsed as. A text is a resource if and only if it spells one, once the blanks around it are cut
off and its letters are made small (`parse_exact`).

A text that was written for a payload or a part is cut into the components that it was made of, in
any letter case (`parse_renderSingle`, `parse_renderPart`). Parsing depends on the lower-case form of a text
alone (`parse_eq_parseLower`). The written texts are their own lower-case form, have no blanks (`isPlain`), and
no slashes but those between components; all of their characters are small letters, digits and the marks
between components (`isWritten`).
-/

namespace UrReplay.Resource

theorem parse_eq_parseLower (t : Text) : parse t = parseLower t.lower.trim := by
  rw [parse, Text.lower_trim]

/-! ### Plain characters -/

/-- Whether a character is a visible ASCII one and no capital letter. -/
def isPlain (c : Char) : Bool := 0x21 ≤ c.toNat && c.toNat ≤ 0x7E && !c.isUpper

theorem isPlain_iff {c : Char} :
    isPlain c = true ↔ (0x21 ≤ c.toNat ∧ c.toNat ≤ 0x7E) ∧ ¬(0x41 ≤ c.toNat ∧ c.toNat ≤ 0x5A) := by
  simp [isPlain, Char.isUpper, UInt32.le_iff_toNat_le]
  omega

/-- Whether a character can stand in a text that is written: a small letter, a digit or one of the marks
between the components. -/
def isWritten (c : Char) : Bool :=
  c.isLower || Decimal.isDigit c || c == '-' || c == '/' || c == ':'

theorem isPlain_of_isWritten {c : Char} (h : isWritten c = true) : isPlain c = true := by
  simp only [isWritten, Bool.or_eq_true, beq_iff_eq] at h
  rcases h with (((h | h) | rfl) | rfl) | rfl
  · have h : 97 ≤ c.toNat ∧ c.toNat ≤ 122 := by
      simpa [Char.isLower, UInt32.le_iff_toNat_le] using h
    rw [isPlain_iff]
    omega
  · rw [Decimal.isDigit_iff] at h
    rw [isPlain_iff]
    omega
  · decide
  · decide
  · decide

theorem isWritten_of_isLower {c : Char} (h : c.isLower = true) : isWritten c = true := by
  simp [isWritten, h]

theorem isWritten_of_isDigit {c : Char} (h : Decimal.isDigit c = true) : isWritten c = true := by
  simp [isWritten, h]

theorem isWritten_of_isTypeChar {c : Char} (h : isTypeChar c = true) : isWritten c = true := by
  simp only [isTypeChar, Bool.or_eq_true, Bool.and_eq_true, decide_eq_true_eq, beq_iff_eq] at h
  rcases h with (⟨hfirst, hlast⟩ | h) | rfl
  · exact isWritten_of_isLower (by simpa [Char.isLower] using ⟨hfirst, hlast⟩)
  · exact isWritten_of_isDigit (by simpa [Decimal.isDigit] using h)
  · decide

/-- A text whose lower-case form has plain characters only is parsed as that form. -/
theorem parse_of_isPlain {t plain : Text} (hplain : ∀ c ∈ plain, isPlain c = true)
    (ht : t.lower = plain) : parse t = parseLower plain := by
  have hblank : ∀ c ∈ plain, isBlank c = false := fun c hc => by
    have hrange := (isPlain_iff.1 (hplain c hc)).1
    exact isBlank_eq_false hrange.1 hrange.2
  rw [parse_eq_parseLower, ht, Text.trim_eq_self hblank]

theorem lower_eq_self_of_isPlain {plain : Text} (h : ∀ c ∈ plain, isPlain c = true) :
    plain.lower = plain := by
  refine Text.lower_eq_self ?_
  intro c hc
  have hc := h c hc
  simp only [isPlain, Bool.and_eq_true, Bool.not_eq_true'] at hc
  exact hc.2

/-! ### Components -/

variable {type : Text}

theorem isTypeChar_of_mem (htype : isValidType type = true) {c : Char} (hc : c ∈ type) :
    isTypeChar c = true := by
  simp only [isValidType, Bool.and_eq_true, List.all_eq_true] at htype
  exact htype.2 c hc

theorem slash_not_mem_body (payload : Bytes) : '/' ∉ Bytewords.encode .minimal payload :=
  fun h => absurd (Bytewords.isLower_of_mem_joinLetters h) (by decide)

/-- A place is spelled by its numbers. -/
theorem Position.spelling_encode {seqNum : UInt32} {seqLen : Nat} (hnum : seqNum ≠ 0)
    (hpos : 0 < seqLen) (hlt : seqLen < UInt64.size) :
    Spelling (Decimal.encode seqNum.toNat ++ '-' :: Decimal.encode seqLen) ⟨seqNum, seqLen⟩ := by
  have hnumPos : seqNum.toNat ≠ 0 := fun hzero => hnum (UInt32.toNat_inj.1 hzero)
  have hnumLt : seqNum.toNat < 4294967296 := seqNum.toNat_lt_size
  have hlenLt : seqLen < 18446744073709551616 := hlt
  have hspelling := Spelling.intro (Decimal.spells_encode seqNum.toNat) (by omega)
    (Decimal.spells_encode seqLen) (by omega)
  rwa [UInt32.ofNat_toNat] at hspelling

/-! ### Written texts -/

theorem isWritten_of_mem_scheme {c : Char} (h : c ∈ scheme) : isWritten c = true := by
  have hall : scheme.all isWritten = true := by decide
  exact List.all_eq_true.1 hall c h

theorem isWritten_of_mem_renderSingle (htype : isValidType type = true) (payload : Bytes) :
    ∀ c ∈ renderSingle type payload, isWritten c = true := by
  intro c hc
  rw [renderSingle, List.mem_append, List.mem_append, List.mem_cons] at hc
  rcases hc with (hc | hc) | rfl | hc
  · exact isWritten_of_mem_scheme hc
  · exact isWritten_of_isTypeChar (isTypeChar_of_mem htype hc)
  · decide
  · exact isWritten_of_isLower (Bytewords.isLower_of_mem_joinLetters hc)

/-- What stands before the body of a part, whatever its numbers. -/
theorem isWritten_of_mem_front (htype : isValidType type = true) (seqNum seqLen : Nat) :
    ∀ c ∈ scheme ++ (type ++ '/' :: (Decimal.encode seqNum ++ '-' :: Decimal.encode seqLen)),
      isWritten c = true := by
  intro c hc
  simp only [List.mem_append, List.mem_cons] at hc
  rcases hc with hc | hc | rfl | hc | rfl | hc
  · exact isWritten_of_mem_scheme hc
  · exact isWritten_of_isTypeChar (isTypeChar_of_mem htype hc)
  · decide
  · exact isWritten_of_isDigit (Decimal.isDigit_of_mem_encode hc)
  · decide
  · exact isWritten_of_isDigit (Decimal.isDigit_of_mem_encode hc)

theorem renderPart_eq (type : Text) (part : Fountain.Part) :
    renderPart type part =
      scheme ++ (type ++ '/' :: (Decimal.encode part.seqNum.toNat ++ '-' :: Decimal.encode part.seqLen)) ++
        '/' :: Bytewords.encode .minimal part.toCbor := by
  simp [renderPart]

theorem isWritten_of_mem_renderPart (htype : isValidType type = true) (part : Fountain.Part) :
    ∀ c ∈ renderPart type part, isWritten c = true := by
  intro c hc
  rw [renderPart_eq, List.mem_append, List.mem_cons] at hc
  rcases hc with hc | rfl | hc
  · exact isWritten_of_mem_front htype part.seqNum.toNat part.seqLen c hc
  · decide
  · exact isWritten_of_isLower (Bytewords.isLower_of_mem_joinLetters hc)

theorem isPlain_of_mem_renderSingle (htype : isValidType type = true) (payload : Bytes) :
    ∀ c ∈ renderSingle type payload, isPlain c = true := fun c hc =>
  isPlain_of_isWritten (isWritten_of_mem_renderSingle htype payload c hc)

theorem isPlain_of_mem_renderPart (htype : isValidType type = true) (part : Fountain.Part) :
    ∀ c ∈ renderPart type part, isPlain c = true := fun c hc =>
  isPlain_of_isWritten (isWritten_of_mem_renderPart htype part c hc)

/-- The text of a payload gives its type and its body. -/
theorem parse_renderSingle {t : Text} {payload : Bytes} (htype : isValidType type = true)
    (ht : t.lower = renderSingle type payload) :
    parse t = .ok ⟨type, none, Bytewords.encode .minimal payload⟩ := by
  rw [parse_of_isPlain (isPlain_of_mem_renderSingle htype payload) ht, renderSingle,
    List.append_assoc, parseLower_eq_ok_iff]
  exact .whole (isValidType_iff.1 htype) (slash_not_mem_body payload)

/-- The text of a part gives its type, its place and its body. -/
theorem parse_renderPart {t : Text} {part : Fountain.Part} (htype : isValidType type = true)
    (hnum : part.seqNum ≠ 0) (hpos : 0 < part.seqLen) (hlt : part.seqLen < UInt64.size)
    (ht : t.lower = renderPart type part) :
    parse t = .ok ⟨type, some (.ofPart part), Bytewords.encode .minimal part.toCbor⟩ := by
  rw [parse_of_isPlain (isPlain_of_mem_renderPart htype part) ht, renderPart_eq, List.append_assoc,
    List.append_assoc, List.cons_append, parseLower_eq_ok_iff]
  exact .part (isValidType_iff.1 htype) (Position.spelling_encode hnum hpos hlt)
    (slash_not_mem_body part.toCbor)

/-! ### All texts -/

/-- A text that begins with the scheme and ends in a body is trimmed already, if the body is. -/
theorem trim_scheme_append (middle : Text) {body : Text}
    (hbody : ∀ c, body.getLast? = some c → isBlank c = false) :
    (scheme ++ (middle ++ '/' :: body)).trim = scheme ++ (middle ++ '/' :: body) := by
  refine Text.trim_eq_self_of_ends (fun c hc => ?_) (fun c hc => ?_)
  · obtain rfl : 'u' = c := by simpa [scheme] using hc
    decide
  · have hc : body.getLast?.getD '/' = c := by
      simpa [List.getLast?_append, List.getLast?_cons] using hc
    cases hlast : body.getLast? with
    | none =>
      obtain rfl : '/' = c := by simpa [hlast] using hc
      decide
    | some last =>
      obtain rfl : last = c := by simpa [hlast] using hc
      exact hbody last hlast

/-- What is parsed, and as what: a text spells a resource, once the blanks around it are cut off and its
letters are made small, or it is refused. So a resource with a place in a transfer is read from its components,
with the numbers in decimal. -/
theorem parse_exact :
    (∀ (t : Text) (resource : Resource), parse t = .ok resource ↔ Spelling t.trim.lower resource) ∧
      ∀ (type body : Text) (seqNum seqLen : Nat), IsType type →
        (1 ≤ seqNum ∧ seqNum ≤ 4294967295) → (1 ≤ seqLen ∧ seqLen ≤ 18446744073709551615) →
        '/' ∉ body → body.lower = body → (∀ c, body.getLast? = some c → isBlank c = false) →
          parse (scheme ++ (type ++ '/' ::
              (Decimal.encode seqNum ++ '-' :: Decimal.encode seqLen ++ '/' :: body))) =
            .ok ⟨type, some ⟨.ofNat seqNum, seqLen⟩, body⟩ := by
  have hparse (t : Text) (resource : Resource) :
      parse t = .ok resource ↔ Spelling t.trim.lower resource := parseLower_eq_ok_iff
  refine ⟨hparse, ?_⟩
  intro type body seqNum seqLen htype hnum hlen hslash hlower hblank
  let middle : Text := type ++ '/' :: (Decimal.encode seqNum ++ '-' :: Decimal.encode seqLen)
  have htext : scheme ++ (type ++ '/' ::
      (Decimal.encode seqNum ++ '-' :: Decimal.encode seqLen ++ '/' :: body)) =
        scheme ++ (middle ++ '/' :: body) := by
    simp [middle]
  have hplain : ∀ c ∈ scheme ++ middle, isPlain c = true := fun c hc =>
    isPlain_of_isWritten (isWritten_of_mem_front (isValidType_iff.2 htype) seqNum seqLen c hc)
  have hsame : (scheme ++ (middle ++ '/' :: body)).lower = scheme ++ (middle ++ '/' :: body) := by
    rw [← List.append_assoc, Text.lower_append, lower_eq_self_of_isPlain hplain, Text.lower_cons, hlower]
    rfl
  rw [hparse, htext, trim_scheme_append middle hblank, hsame, ← htext]
  exact .part htype (.intro (Decimal.spells_encode seqNum) hnum (Decimal.spells_encode seqLen) hlen) hslash

/-- Part twelve of thirty. -/
theorem parse_exact_twelve_of_thirty :
    let type : Text := ['h', 'd', '-', 'k', 'e', 'y']
    let body : Text := ['l', 'p', 'a', 'd']
    IsType type ∧ '/' ∉ body ∧ body.lower = body ∧
      (∀ c, body.getLast? = some c → isBlank c = false) ∧
      parse (scheme ++ (type ++ '/' :: (Decimal.encode 12 ++ '-' :: Decimal.encode 30 ++ '/' :: body))) =
        .ok ⟨type, some ⟨12, 30⟩, body⟩ := by
  intro type body
  have htype : IsType type := isValidType_iff.1 (by decide)
  have hslash : '/' ∉ body := by decide
  have hlower : body.lower = body := by decide
  have hblank : ∀ c, body.getLast? = some c → isBlank c = false := by
    intro c hc
    obtain rfl : 'd' = c := Option.some.inj hc
    decide
  exact ⟨htype, hslash, hlower, hblank,
    parse_exact.2 type body 12 30 htype (by decide) (by decide) hslash hlower hblank⟩

end UrReplay.Resource
