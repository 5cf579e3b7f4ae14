import UrReplay.Bytes
import UrReplay.Fountain.IndexSet
/-!
# UrReplay.Fountain.Mix

The exclusive or of the fragments with certain indexes. A mix of some of the fragments of another
one can be taken out of it: what is left is the mix of the others.
-/

namespace UrReplay.Fountain

/-- Data that is the exclusive or of the fragments with these indexes. -/
structure Mix where
  indexes : IndexSet
  data : Bytes
  deriving DecidableEq

namespace Mix

/-- The mix of one fragment. -/
def ofFragment (i : Nat) (data : Bytes) : Mix := ⟨.singleton i, data⟩

/-- The index of the fragment that a mix of one fragment is. -/
def single? (m : Mix) : Option Nat :=
  match m.indexes.toList with
  | [i] => some i
  | _ => none

/-- Whether a mix is one fragment. -/
def isSingle (m : Mix) : Bool := m.single?.isSome

/-- Takes another mix out, if it mixes some but not all of the same fragments. -/
def reduceBy (m other : Mix) : Mix :=
  if other.indexes.card < m.indexes.card && other.indexes.isSubset m.indexes then
    ⟨m.indexes.sdiff other.indexes, m.data.xorInto other.data⟩
  else m

/-- Puts a mix in the place of the first one of the same fragments, or else at the end. -/
def upsert (m : Mix) : List Mix → List Mix
  | [] => [m]
  | other :: rest =>
    if other.indexes = m.indexes then m :: rest else other :: upsert m rest

theorem length_upsert_le (m : Mix) (held : List Mix) :
    (upsert m held).length ≤ held.length + 1 := by
  induction held with
  | nil => simp [upsert]
  | cons other rest ih =>
    unfold upsert
    split
    · simp
    · simp only [List.length_cons]
      omega

/-- Puts mixes one after another into a list that has none yet. -/
def collect (ms : List Mix) : List Mix := ms.foldl (fun held m => upsert m held) []

theorem length_collect_le (ms : List Mix) : (collect ms).length ≤ ms.length := by
  have general (ms held : List Mix) :
      (ms.foldl (fun held m => upsert m held) held).length ≤ held.length + ms.length := by
    induction ms generalizing held with
    | nil => simp
    | cons m ms ih =>
      have h₁ := ih (upsert m held)
      have h₂ := length_upsert_le m held
      simp only [List.foldl_cons, List.length_cons]
      omega
  simpa [collect] using general ms []

end Mix

end UrReplay.Fountain
