/-!
# UrReplay.Proofs.InPlace

Actions that change a state in place and may be refused halfway. Such an action is `Atomic` if it is
carried out as a whole or leaves the state as it was. Looking at the state and judging something else
may come first in an atomic action (`Atomic.get_bind`, `Atomic.ofExcept_bind`), and a change that cannot
be refused may come last (`Atomic.bind_modify`).
-/

namespace UrReplay

variable {ε σ α : Type}

theorem run_get_bind (f : σ → ExceptT ε (StateM σ) α) (s : σ) :
    (get >>= f).run.run s = (f s).run.run s := rfl

/-- In place, an action makes of `s` what `result` gives, or it is refused as `result` is and leaves `s`
as it was. -/
def Atomic (action : ExceptT ε (StateM σ) Unit) (s : σ) (result : Except ε σ) : Prop :=
  action.run.run s =
    match result with
    | .error e => (.error e, s)
    | .ok s' => (.ok (), s')

namespace Atomic

variable {action : ExceptT ε (StateM σ) Unit} {s : σ} {result : Except ε σ}

theorem of_throw (e : ε) (s : σ) : Atomic (throw e : ExceptT ε (StateM σ) Unit) s (.error e) := rfl

theorem of_modify (f : σ → σ) (s : σ) :
    Atomic (modify f : ExceptT ε (StateM σ) Unit) s (.ok (f s)) := rfl

theorem get_bind {f : σ → ExceptT ε (StateM σ) Unit} (h : Atomic (f s) s result) :
    Atomic (get >>= f) s result := h

theorem ofExcept_bind {x : Except ε α} {f : α → ExceptT ε (StateM σ) Unit} {g : α → Except ε σ}
    (h : ∀ a, x = .ok a → Atomic (f a) s (g a)) :
    Atomic (MonadExcept.ofExcept x >>= f) s (x >>= g) := by
  cases x with
  | error e => rfl
  | ok a => exact h a rfl

theorem bind_modify (h : Atomic action s result) (f : σ → σ) :
    Atomic (do action; modify f) s (do let s' ← result; .ok (f s')) := by
  unfold Atomic at h ⊢
  rw [ExceptT.run_bind, StateT.run_bind, h]
  cases result <;> rfl

/-- A refused action leaves the state as it was. -/
theorem eq_of_error (h : Atomic action s result) {e : ε} {s' : σ}
    (hrefused : action.run.run s = (.error e, s')) : s' = s ∧ result = .error e := by
  rw [h] at hrefused
  cases result with
  | error e' =>
      obtain ⟨he, hs⟩ := Prod.mk.inj hrefused
      exact ⟨hs.symm, congrArg _ (Except.error.inj he)⟩
  | ok s'' => exact absurd (congrArg Prod.fst hrefused) (by simp)

/-- An action that is not refused is carried out as a whole. -/
theorem eq_of_ok (h : Atomic action s result) {s' : σ} (hdone : action.run.run s = (.ok (), s')) :
    result = .ok s' := by
  rw [h] at hdone
  cases result with
  | error e => exact absurd (congrArg Prod.fst hdone) (by simp)
  | ok s'' => exact congrArg _ (Prod.mk.inj hdone).2

end Atomic

end UrReplay
