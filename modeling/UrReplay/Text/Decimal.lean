import UrReplay.Text.Basic
/-!
# UrReplay.Text.Decimal

Whole numbers in decimal. A number is written with the fewest digits; it is read with an optional
plus sign in front and any number of leading zeros, and only if it stays below a limit.
-/

namespace UrReplay.Decimal

/-- Whether a character is one of the ten ASCII digits. -/
def isDigit (c : Char) : Bool := '0' ≤ c && c ≤ '9'

/-- The digits of a number, without leading zeros. -/
def encode (n : Nat) : Text := Nat.toDigits 10 n

/-- The number that a text of digits spells, if there is a digit, nothing but digits, and the number
is below `limit`. -/
def ofDigits? (limit : Nat) (digits : Text) : Option Nat :=
  if digits ≠ [] ∧ digits.all isDigit = true ∧ Nat.ofDigitChars 10 digits 0 < limit then
    some (Nat.ofDigitChars 10 digits 0)
  else none

/-- The number below `limit` that a text spells; one plus sign may stand before the digits. -/
def decode? (limit : Nat) : Text → Option Nat
  | '+' :: digits => ofDigits? limit digits
  | digits => ofDigits? limit digits

end UrReplay.Decimal
