import UrReplay.Text.Basic
/-!
# UrReplay.Text.Order

The order of texts: the first characters that differ decide, by their code points, and a text comes
after every beginning of it. It is the order of their UTF-8 bytes, too. Any two texts are in order
one way round (`le_total`), and both ways round only if they are equal (`le_antisymm`). Without
equality it is the order of lists (`lt_of_le_of_ne`).
-/

namespace UrReplay.Text

/-- Whether a text comes before another one or is the same. -/
def le : Text → Text → Bool
  | [], _ => true
  | _ :: _, [] => false
  | c :: s, d :: t => c.toNat < d.toNat || (c == d && le s t)

theorem le_total (s t : Text) : (le s t || le t s) = true := by
  induction s generalizing t with
  | nil => simp [le]
  | cons c s ih =>
    cases t with
    | nil => simp [le]
    | cons d t =>
      by_cases h : c = d
      · subst h
        simpa [le] using ih t
      · have : c.toNat ≠ d.toNat := fun e => h (Char.toNat_inj.1 e)
        simp [le, h, Ne.symm h]
        omega

theorem le_antisymm {s t : Text} (hst : le s t = true) (hts : le t s = true) : s = t := by
  induction s generalizing t with
  | nil =>
    cases t with
    | nil => rfl
    | cons d t => simp [le] at hts
  | cons c s ih =>
    cases t with
    | nil => simp [le] at hst
    | cons d t =>
      simp only [le, Bool.or_eq_true, decide_eq_true_eq, Bool.and_eq_true, beq_iff_eq] at hst hts
      rcases hst with h | ⟨rfl, h⟩
      · rcases hts with h' | ⟨rfl, -⟩ <;> omega
      · have h' : le t s = true := by simpa using hts
        rw [ih h h']

theorem le_trans {s t u : Text} (hst : le s t = true) (htu : le t u = true) : le s u = true := by
  induction s generalizing t u with
  | nil => rfl
  | cons c s ih =>
    cases t with
    | nil => simp [le] at hst
    | cons d t =>
      cases u with
      | nil => simp [le] at htu
      | cons e u =>
        simp only [le, Bool.or_eq_true, decide_eq_true_eq, Bool.and_eq_true, beq_iff_eq] at *
        rcases hst with h | ⟨rfl, h⟩ <;> rcases htu with h' | ⟨rfl, h'⟩
        · exact .inl (by omega)
        · exact .inl h
        · exact .inl h'
        · exact .inr ⟨rfl, ih h h'⟩

theorem lt_of_le_of_ne {s t : Text} (h : le s t = true) (hne : s ≠ t) : s < t := by
  induction s generalizing t with
  | nil =>
    obtain ⟨d, t, rfl⟩ := List.exists_cons_of_ne_nil hne.symm
    exact List.nil_lt_cons d t
  | cons c s ih =>
    cases t with
    | nil => exact absurd h Bool.false_ne_true
    | cons d t =>
      simp only [le, Bool.or_eq_true, decide_eq_true_eq, Bool.and_eq_true, beq_iff_eq] at h
      rw [List.cons_lt_cons_iff]
      rcases h with hlt | ⟨rfl, hle⟩
      · exact .inl hlt
      · exact .inr ⟨rfl, ih hle fun heq => hne (heq ▸ rfl)⟩

end UrReplay.Text
