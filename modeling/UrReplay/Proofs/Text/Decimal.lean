import Mathlib.Data.Nat.Digits.Defs
import UrReplay.Text.Decimal
/-!
# UrReplay.Proofs.Text.Decimal

Which texts are read as numbers: those that `Spells` one below the limit (`decode?_eq_some_iff`). What is
written for a number is digits only, and one of its spellings, so it is read back (`decode?_encode`).
-/

namespace UrReplay.Decimal

/-! ### Spellings -/

/-- A text of digits, at least one of them. -/
structure IsDigits (t : Text) : Prop where
  nonempty : t ≠ []
  digit : ∀ c ∈ t, '0' ≤ c ∧ c ≤ '9'

/-- The number that digits stand for, the last one for the ones. -/
def value (digits : Text) : Nat := Nat.ofDigits 10 (digits.map fun c => c.toNat - '0'.toNat).reverse

/-- The digits of a text, with at most one plus sign in front, stand for a number. -/
inductive Spells : Text → Nat → Prop
  | unsigned {digits : Text} (h : IsDigits digits) : Spells digits (value digits)
  | signed {digits : Text} (h : IsDigits digits) : Spells ('+' :: digits) (value digits)

theorem isDigit_iff {c : Char} : isDigit c = true ↔ 48 ≤ c.toNat ∧ c.toNat ≤ 57 := by
  simp [isDigit, Char.le_def, UInt32.le_iff_toNat_le]

theorem isDigits_iff {t : Text} : IsDigits t ↔ t ≠ [] ∧ t.all isDigit = true := by
  have hdigit (c : Char) : isDigit c = true ↔ '0' ≤ c ∧ c ≤ '9' := by simp [isDigit]
  simp only [List.all_eq_true, hdigit]
  exact ⟨fun h => ⟨h.nonempty, h.digit⟩, fun h => ⟨h.1, h.2⟩⟩

theorem IsDigits.ne_plus {digits rest : Text} (h : IsDigits digits) : digits ≠ '+' :: rest := by
  intro heq
  have hplus := h.digit '+' (heq ▸ List.mem_cons_self)
  exact absurd hplus (by decide)

/-- A number is spelled with digits and plus signs only. -/
theorem Spells.digit_or_plus {t : Text} {n : Nat} (h : Spells t n) {c : Char} (hc : c ∈ t) :
    ('0' ≤ c ∧ c ≤ '9') ∨ c = '+' := by
  cases h with
  | unsigned hdigits => exact .inl (hdigits.digit c hc)
  | signed hdigits =>
    rcases List.mem_cons.1 hc with hsign | hc
    · exact .inr hsign
    · exact .inl (hdigits.digit c hc)

theorem ofDigitChars_eq_value (digits : Text) : Nat.ofDigitChars 10 digits 0 = value digits := by
  rw [value, Nat.ofDigits_eq_foldr, List.foldr_reverse, List.foldl_map, Nat.ofDigitChars]
  congr 1
  funext n c
  exact Nat.add_comm _ _

/-! ### Reading -/

theorem ofDigits?_eq_some_iff {limit n : Nat} {digits : Text} :
    ofDigits? limit digits = some n ↔ IsDigits digits ∧ value digits = n ∧ n < limit := by
  rw [ofDigits?, ofDigitChars_eq_value, Option.ite_none_right_eq_some, Option.some.injEq, isDigits_iff]
  constructor
  · intro h
    obtain ⟨⟨hne, hall, hlt⟩, rfl⟩ := h
    exact ⟨⟨hne, hall⟩, rfl, hlt⟩
  · intro h
    obtain ⟨⟨hne, hall⟩, rfl, hlt⟩ := h
    exact ⟨⟨hne, hall, hlt⟩, rfl⟩

/-- A number is read from its spellings. -/
theorem decode?_eq_some_iff {limit n : Nat} {t : Text} :
    decode? limit t = some n ↔ Spells t n ∧ n < limit := by
  constructor
  · intro h
    unfold decode? at h
    split at h
    · obtain ⟨hdigits, rfl, hlt⟩ := ofDigits?_eq_some_iff.1 h
      exact ⟨.signed hdigits, hlt⟩
    · obtain ⟨hdigits, rfl, hlt⟩ := ofDigits?_eq_some_iff.1 h
      exact ⟨.unsigned hdigits, hlt⟩
  · intro h
    obtain ⟨hspells, hlt⟩ := h
    cases hspells with
    | signed hdigits => exact ofDigits?_eq_some_iff.2 ⟨hdigits, rfl, hlt⟩
    | unsigned hdigits =>
      unfold decode?
      split
      · exact absurd rfl hdigits.ne_plus
      · exact ofDigits?_eq_some_iff.2 ⟨hdigits, rfl, hlt⟩

/-! ### Writing -/

theorem isDigit_of_mem_encode {n : Nat} {c : Char} (h : c ∈ encode n) : isDigit c = true := by
  have hdigit := Nat.isDigit_of_mem_toDigits (by decide) (by decide) h
  rw [isDigit_iff]
  simpa [Char.isDigit, UInt32.le_iff_toNat_le] using hdigit

theorem encode_ne_nil (n : Nat) : encode n ≠ [] := Nat.toDigits_ne_nil

theorem spells_encode (n : Nat) : Spells (encode n) n := by
  have hdigits : IsDigits (encode n) := isDigits_iff.2
    ⟨encode_ne_nil n, List.all_eq_true.2 fun c hc => isDigit_of_mem_encode hc⟩
  have hvalue : value (encode n) = n := by
    rw [← ofDigitChars_eq_value]
    exact Nat.ofDigitChars_ten_toDigits
  have hspells := Spells.unsigned hdigits
  rwa [hvalue] at hspells

/-- A number that was written is read back. -/
theorem decode?_encode {limit n : Nat} (h : n < limit) : decode? limit (encode n) = some n :=
  decode?_eq_some_iff.2 ⟨spells_encode n, h⟩

end UrReplay.Decimal
