import UrReplay.Proofs.Text.Lower
/-!
# UrReplay.Proofs.Text.Trim

Trimming takes exactly the blanks at the two ends: a text is its trimmed form between blanks
(`exists_eq_trim`), and whatever stands between blanks and has none at its own ends is the trimmed form
(`trim_eq_of_padded`).
-/

namespace UrReplay.Text

variable {t before after : Text}

/-- Nothing but blanks. -/
def IsBlanks (t : Text) : Prop := ∀ c ∈ t, isBlank c = true

/-- No blank at either end. -/
structure IsTrimmed (t : Text) : Prop where
  first : ∀ c, t.head? = some c → isBlank c = false
  last : ∀ c, t.getLast? = some c → isBlank c = false

/-- What stands between blanks and has none at its own ends is what trimming leaves. -/
theorem trim_eq_of_padded (hbefore : IsBlanks before) (ht : IsTrimmed t) (hafter : IsBlanks after) :
    trim (before ++ t ++ after) = t := by
  have hend : ∀ c ∈ after.reverse, isBlank c = true := fun c hc => hafter c (List.mem_reverse.1 hc)
  rw [trim, List.append_assoc, List.dropWhile_append_of_pos hbefore]
  cases t with
  | nil =>
    have hnone : after.dropWhile isBlank = [] := List.dropWhile_eq_nil_iff.2 hafter
    rw [List.nil_append, hnone]
    rfl
  | cons c t =>
    have hfirst : ¬isBlank c = true := by simp [ht.first c rfl]
    rw [List.cons_append, List.dropWhile_cons_of_neg hfirst, ← List.cons_append, List.reverse_append,
      List.dropWhile_append_of_pos hend]
    have htrimmed := trim_eq_self_of_ends ht.first ht.last
    rwa [trim, List.dropWhile_cons_of_neg hfirst] at htrimmed

theorem isBlank_of_head?_dropWhile {c : Char} (h : (t.dropWhile isBlank).head? = some c) :
    isBlank c = false := by
  have hstop := List.head?_dropWhile_not isBlank t
  rwa [h] at hstop

/-- Behind the blanks at the beginning stand the trimmed form and the blanks at the end. -/
theorem dropWhile_eq_trim_append (t : Text) :
    t.dropWhile isBlank = t.trim ++ ((t.dropWhile isBlank).reverse.takeWhile isBlank).reverse := by
  rw [trim, ← List.reverse_append, List.takeWhile_append_dropWhile, List.reverse_reverse]

theorem isTrimmed_trim (t : Text) : IsTrimmed t.trim where
  first c hc := by
    refine isBlank_of_head?_dropWhile (t := t) ?_
    rw [dropWhile_eq_trim_append, List.head?_append, hc, Option.some_or]
  last c hc := by
    rw [trim, List.getLast?_reverse] at hc
    exact isBlank_of_head?_dropWhile hc

/-- A text is its trimmed form between blanks. -/
theorem exists_eq_trim (t : Text) :
    ∃ before after, IsBlanks before ∧ IsBlanks after ∧ t = before ++ t.trim ++ after := by
  refine ⟨t.takeWhile isBlank, ((t.dropWhile isBlank).reverse.takeWhile isBlank).reverse, ?_, ?_, ?_⟩
  · intro c hc
    exact List.mem_takeWhile_imp hc
  · intro c hc
    exact List.mem_takeWhile_imp (List.mem_reverse.1 hc)
  · rw [List.append_assoc, ← dropWhile_eq_trim_append, List.takeWhile_append_dropWhile]

/-- Blanks at the end do not count. -/
theorem trim_append_blanks (h : IsBlanks after) (t : Text) : trim (t ++ after) = trim t := by
  obtain ⟨before, blanks, hbefore, hblanks, ht⟩ := exists_eq_trim t
  have hend : IsBlanks (blanks ++ after) := by
    intro c hc
    rcases List.mem_append.1 hc with hc | hc
    · exact hblanks c hc
    · exact h c hc
  rw [ht, List.append_assoc, trim_eq_of_padded hbefore (isTrimmed_trim t) hend, ← ht]

end UrReplay.Text
