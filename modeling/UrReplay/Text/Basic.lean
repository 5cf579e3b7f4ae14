/-!
# UrReplay.Text.Basic

Text that is read, cut and compared, as a list of characters.

* Letter case is the ASCII one: `lower` folds `A` to `Z` and leaves every other character alone, so
  a text that mixes in other alphabets keeps its length and its meaning.
* Cutting at a separator comes in two forms. `split` keeps every piece, so putting the separator
  back between them gives the text again; `cutAt?` cuts at the first separator only.
-/

namespace UrReplay

/-- Text that is read, cut and compared, character by character. Text that is only ever written,
such as a message or a report, is a `String`. -/
abbrev Text := List Char

namespace Text

/-- The same text with the letters `A` to `Z` in lower case. -/
def lower (t : Text) : Text := t.map Char.toLower

@[simp] theorem lower_nil : lower [] = [] := rfl

@[simp] theorem lower_cons (c : Char) (t : Text) : lower (c :: t) = c.toLower :: lower t := rfl

@[simp] theorem lower_append (s t : Text) : lower (s ++ t) = lower s ++ lower t := by
  simp [lower]

@[simp] theorem length_lower (t : Text) : (lower t).length = t.length := by
  simp [lower]

/-! ### Cutting at a separator -/

/-- The pieces of `piece.reverse ++ t`, where `piece` is the part of the first piece that has been
read already and holds no separator. -/
def splitFrom (separator : Char) (piece : Text) : Text → List Text
  | [] => [piece.reverse]
  | c :: t =>
    if c = separator then piece.reverse :: splitFrom separator [] t
    else splitFrom separator (c :: piece) t

/-- The pieces between the occurrences of `separator`. There is always one piece more than there are
separators, so the empty text has one empty piece. -/
def split (separator : Char) (t : Text) : List Text := splitFrom separator [] t

theorem splitFrom_append (separator : Char) (piece s t : Text) :
    splitFrom separator piece (s ++ separator :: t)
      = splitFrom separator piece s ++ split separator t := by
  induction s generalizing piece with
  | nil => simp [splitFrom, split]
  | cons c s ih => by_cases h : c = separator <;> simp [splitFrom, h, ih]

/-- A separator cuts the text into two parts whose pieces do not depend on each other. -/
theorem split_append (separator : Char) (s t : Text) :
    split separator (s ++ separator :: t) = split separator s ++ split separator t :=
  splitFrom_append separator [] s t

theorem splitFrom_of_not_mem {separator : Char} {t : Text} (h : separator ∉ t) (piece : Text) :
    splitFrom separator piece t = [piece.reverse ++ t] := by
  induction t generalizing piece with
  | nil => simp [splitFrom]
  | cons c t ih =>
    have hc : c ≠ separator := fun e => h (by simp [e])
    have ht : separator ∉ t := fun m => h (by simp [m])
    simp [splitFrom, hc, ih ht]

/-- A text without the separator is its own only piece. -/
theorem split_of_not_mem {separator : Char} {t : Text} (h : separator ∉ t) :
    split separator t = [t] := by
  simpa [split] using splitFrom_of_not_mem h []

/-- What stands before and after the first `separator`, if there is one. -/
def cutAt? (separator : Char) (t : Text) : Option (Text × Text) :=
  match t.dropWhile (· ≠ separator) with
  | [] => none
  | _ :: rest => some (t.takeWhile (· ≠ separator), rest)

end Text

end UrReplay
