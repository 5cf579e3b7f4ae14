import Mathlib.Data.List.Basic
import Mathlib.Data.List.TakeWhile
import UrReplay.Proofs.Text.Decimal
import UrReplay.Proofs.Text.Split
import UrReplay.Resource.Basic
/-!
# UrReplay.Proofs.Resource.Grammar

The grammar of resources. A `Spelling` is put together from the components of a resource, with slashes
between them; a number in it may have a plus sign and zeros in front. What is parsed is a spelling, and the
result is what it spells (`parseLower_eq_ok_iff`). Every layer is exact: types (`isValidType_iff`), places in a
transfer (`Position.ofText?_eq_some_iff`), components (`ofComponents_eq_ok_iff`).
-/

namespace UrReplay.Resource

/-! ### Types -/

/-- A type: small letters, digits and hyphens, with no hyphen at either end. -/
structure IsType (t : Text) : Prop where
  nonempty : t ≠ []
  char : ∀ c ∈ t, ('a' ≤ c ∧ c ≤ 'z') ∨ ('0' ≤ c ∧ c ≤ '9') ∨ c = '-'
  head : t.head? ≠ some '-'
  last : t.getLast? ≠ some '-'

theorem isValidType_iff {t : Text} : isValidType t = true ↔ IsType t := by
  have hchar (c : Char) : isTypeChar c = true ↔
      ('a' ≤ c ∧ c ≤ 'z') ∨ ('0' ≤ c ∧ c ≤ '9') ∨ c = '-' := by
    simp [isTypeChar, or_assoc]
  simp only [isValidType, Bool.and_eq_true, Bool.not_eq_true', List.isEmpty_eq_false_iff, bne_iff_ne,
    List.all_eq_true, hchar]
  constructor
  · intro h
    obtain ⟨⟨⟨hne, hhead⟩, hlast⟩, hall⟩ := h
    exact ⟨hne, hall, hhead, hlast⟩
  · intro h
    exact ⟨⟨⟨h.nonempty, h.head⟩, h.last⟩, h.char⟩

/-! ### Places in a transfer -/

/-- Two numbers that are not zero, of at most 32 and at most 64 bits, with a hyphen between them. -/
inductive Position.Spelling : Text → Position → Prop
  | intro {first second : Text} {seqNum seqLen : Nat}
      (hnum : Decimal.Spells first seqNum) (hnumRange : 1 ≤ seqNum ∧ seqNum ≤ 4294967295)
      (hlen : Decimal.Spells second seqLen) (hlenRange : 1 ≤ seqLen ∧ seqLen ≤ 18446744073709551615) :
      Spelling (first ++ '-' :: second) ⟨.ofNat seqNum, seqLen⟩

theorem cutAt?_append {separator : Char} {first second : Text} (h : separator ∉ first) :
    Text.cutAt? separator (first ++ separator :: second) = some (first, second) := by
  have hfirst : ∀ c ∈ first, decide (c ≠ separator) = true := fun c hc =>
    decide_eq_true fun heq => h (heq ▸ hc)
  rw [Text.cutAt?, List.dropWhile_append_of_pos hfirst, List.takeWhile_append_of_pos hfirst]
  simp

theorem cutAt?_eq_some_iff {separator : Char} {t first second : Text} :
    Text.cutAt? separator t = some (first, second) ↔
      separator ∉ first ∧ t = first ++ separator :: second := by
  constructor
  · intro h
    unfold Text.cutAt? at h
    split at h
    · exact absurd h (by simp)
    · rename_i c rest hdrop
      obtain ⟨rfl, rfl⟩ := Prod.mk.inj (Option.some.inj h)
      have hc : c = separator := by
        have hhead := List.head?_dropWhile_not (· ≠ separator) t
        rw [hdrop] at hhead
        simpa using hhead
      refine ⟨fun hmem => ?_, ?_⟩
      · simpa using List.mem_takeWhile_imp hmem
      · rw [← hc, ← hdrop, hc]
        exact List.takeWhile_append_dropWhile.symm
  · intro h
    obtain ⟨hfirst, rfl⟩ := h
    exact cutAt?_append hfirst

theorem hyphen_not_mem_of_spells {t : Text} {n : Nat} (h : Decimal.Spells t n) : '-' ∉ t :=
  fun hmem => absurd (h.digit_or_plus hmem) (by decide)

theorem slash_not_mem_of_spells {t : Text} {n : Nat} (h : Decimal.Spells t n) : '/' ∉ t :=
  fun hmem => absurd (h.digit_or_plus hmem) (by decide)

theorem Position.ofText?_eq_some_iff {t : Text} {position : Position} :
    ofText? t = some position ↔ Spelling t position := by
  constructor
  · intro h
    simp only [ofText?, Option.bind_eq_bind, Option.bind_eq_some_iff, Prod.exists] at h
    obtain ⟨first, second, hcut, seqNum, hnum, seqLen, hlen, h⟩ := h
    rw [Option.ite_none_left_eq_some, Option.some.injEq] at h
    obtain ⟨hzero, rfl⟩ := h
    obtain ⟨-, rfl⟩ := cutAt?_eq_some_iff.1 hcut
    obtain ⟨hnum, hnumLt⟩ := Decimal.decode?_eq_some_iff.1 hnum
    obtain ⟨hlen, hlenLt⟩ := Decimal.decode?_eq_some_iff.1 hlen
    have hnumMax : seqNum < 4294967296 := hnumLt
    have hlenMax : seqLen < 18446744073709551616 := hlenLt
    exact .intro hnum (by omega) hlen (by omega)
  · intro h
    cases h with
    | @intro first second seqNum seqLen hnum hnumRange hlen hlenRange =>
      have hzero : ¬(seqNum = 0 ∨ seqLen = 0) := by omega
      have hnumLt : seqNum < UInt32.size := Nat.lt_of_le_of_lt hnumRange.2 (by decide)
      have hlenLt : seqLen < UInt64.size := Nat.lt_of_le_of_lt hlenRange.2 (by decide)
      rw [ofText?, cutAt?_append (hyphen_not_mem_of_spells hnum)]
      simp only [Option.bind_eq_bind, Option.bind_some, Decimal.decode?_eq_some_iff.2 ⟨hnum, hnumLt⟩,
        Decimal.decode?_eq_some_iff.2 ⟨hlen, hlenLt⟩, if_neg hzero]

/-! ### Components -/

/-- A text spells a resource: the scheme, a type and a body, or these with a place in a transfer between them,
and slashes between the components. -/
inductive Spelling : Text → Resource → Prop
  | whole {type body : Text} (htype : IsType type) (hbody : '/' ∉ body) :
      Spelling (scheme ++ (type ++ '/' :: body)) ⟨type, none, body⟩
  | part {type sequence body : Text} {position : Position} (htype : IsType type)
      (hposition : Position.Spelling sequence position) (hbody : '/' ∉ body) :
      Spelling (scheme ++ (type ++ '/' :: (sequence ++ '/' :: body))) ⟨type, some position, body⟩

theorem slash_not_mem_sequence {t : Text} {position : Position} (h : Position.Spelling t position) :
    '/' ∉ t := by
  obtain ⟨hnum, -, hlen, -⟩ := h
  rw [List.mem_append, List.mem_cons, not_or, not_or]
  exact ⟨slash_not_mem_of_spells hnum, by decide, slash_not_mem_of_spells hlen⟩

theorem ofComponents_eq_ok_iff {type : Text} {path : List Text} {resource : Resource} :
    ofComponents type path = .ok resource ↔
      (∃ body, path = [body] ∧ resource = ⟨type, none, body⟩) ∨
        ∃ sequence body position, path = [sequence, body] ∧ Position.Spelling sequence position ∧
          resource = ⟨type, some position, body⟩ := by
  constructor
  · intro h
    unfold ofComponents at h
    split at h
    · exact .inl ⟨_, rfl, (Except.ok.inj h).symm⟩
    · split at h
      · rename_i position hposition
        exact .inr ⟨_, _, position, rfl, Position.ofText?_eq_some_iff.1 hposition, (Except.ok.inj h).symm⟩
      · exact absurd h (by simp)
    · exact absurd h (by simp)
  · intro h
    rcases h with ⟨body, rfl, rfl⟩ | ⟨sequence, body, position, rfl, hposition, rfl⟩
    · rfl
    · simp only [ofComponents, Position.ofText?_eq_some_iff.2 hposition]

/-- After the scheme and a type come the components between slashes. -/
theorem parseLower_scheme {type : Text} (htype : IsType type) (path : Text) :
    parseLower (scheme ++ (type ++ '/' :: path)) = ofComponents type (Text.split '/' path) := by
  have hprefix : scheme.isPrefixOf? (scheme ++ (type ++ '/' :: path)) =
      some (type ++ '/' :: path) := by
    simp [scheme, List.isPrefixOf?]
  have hslash : '/' ∉ type := fun hmem => absurd (htype.char _ hmem) (by decide)
  rw [parseLower, hprefix]
  simp only [Text.split_append, Text.split_of_not_mem hslash, List.singleton_append,
    isValidType_iff.2 htype, if_true]

theorem parseLower_eq_ok_iff {t : Text} {resource : Resource} :
    parseLower t = .ok resource ↔ Spelling t resource := by
  constructor
  · intro h
    unfold parseLower at h
    split at h
    · exact absurd h (by simp)
    · rename_i rest hprefix
      rw [List.isPrefixOf?_eq_some_iff_append_eq] at hprefix
      -- The rest is its pieces with slashes between them, and no piece holds a slash.
      have hpieces := Text.intercalate_split '/' rest
      have hslash : ∀ piece ∈ Text.split '/' rest, '/' ∉ piece := fun piece hpiece =>
        Text.not_mem_of_mem_split hpiece
      split at h
      · exact absurd h (by simp)
      · rename_i type path hsplit
        rw [hsplit] at hpieces hslash
        split at h
        · rename_i htype
          have htype := isValidType_iff.1 htype
          rw [← hprefix, ← hpieces]
          rcases ofComponents_eq_ok_iff.1 h with
            ⟨body, rfl, rfl⟩ | ⟨sequence, body, position, rfl, hposition, rfl⟩
          · simpa using Spelling.whole htype (hslash body (by simp))
          · simpa using Spelling.part htype hposition (hslash body (by simp))
        · exact absurd h (by simp)
  · intro h
    cases h with
    | whole htype hbody =>
      rw [parseLower_scheme htype, Text.split_of_not_mem hbody]
      rfl
    | part htype hposition hbody =>
      rw [parseLower_scheme htype, Text.split_append,
        Text.split_of_not_mem (slash_not_mem_sequence hposition), Text.split_of_not_mem hbody]
      exact ofComponents_eq_ok_iff.2 (.inr ⟨_, _, _, rfl, hposition, rfl⟩)

end UrReplay.Resource
