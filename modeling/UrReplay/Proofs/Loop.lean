/-!
# UrReplay.Proofs.Loop

Loops that change a state in place, turn by turn. A turn is carried out in `Option`. It comes to nothing
if it reads or writes outside of an array (`put?`) or takes a number below zero (`less?`), so that
`Loop turn n s last` says three things at once: no turn does any of that, the loop is over after `n`
turns, and it leaves `last`.
-/

namespace UrReplay

/-- Writes at an index of an array, if there is such an index. -/
def put? {α : Type} (array : Array α) (i : Nat) (value : α) : Option (Array α) :=
  if h : i < array.size then some (array.set i value h) else none

/-- Subtracts, unless the result would be below zero. -/
def less? (a b : Nat) : Option Nat := if b ≤ a then some (a - b) else none

/-- What a turn of a loop comes to. -/
inductive Turn (σ : Type)
  /-- The loop is over. -/
  | over
  /-- The loop goes on from another state. -/
  | next (s : σ)

/-- A loop takes a number of turns from one state to another, and is over there. The turn that finds it
over is not counted. -/
inductive Loop {σ : Type} (turn : σ → Option (Turn σ)) : Nat → σ → σ → Prop
  | over {s : σ} (h : turn s = some .over) : Loop turn 0 s s
  | next {n : Nat} {s s' last : σ} (h : turn s = some (.next s')) (rest : Loop turn n s' last) :
      Loop turn (n + 1) s last

theorem put?_of_lt {α : Type} {array : Array α} {i : Nat} (h : i < array.size) (value : α) :
    put? array i value = some (array.set i value h) := dif_pos h

theorem toArray_get? {α : Type} {n : Nat} (v : Vector α n) {i : Nat} (h : i < n) :
    v.toArray[i]? = some (v.get ⟨i, h⟩) := by
  rw [Array.getElem?_eq_getElem (by simpa using h)]
  rfl

theorem put?_toArray {α : Type} {n : Nat} (v : Vector α n) {i : Nat} (h : i < n) (value : α) :
    put? v.toArray i value = some (v.set i value h).toArray := by
  rw [put?_of_lt (by simpa using h), Vector.toArray_set]

theorem less?_of_le {a b : Nat} (h : b ≤ a) : less? a b = some (a - b) := if_pos h

end UrReplay
