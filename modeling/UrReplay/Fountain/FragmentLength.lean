/-!
# UrReplay.Fountain.FragmentLength

How long the fragments of a message are: as long as allowed, so that there are as few as possible,
and then no longer than that number of fragments needs.
-/

namespace UrReplay.Fountain

/-- The number of fragments that a message needs. -/
def fragmentCount (messageLen fragmentLen : Nat) : Nat :=
  (messageLen + fragmentLen - 1) / fragmentLen

/-- The length of the fragments when a message is cut into `count` of them, where `count` is the
first of `candidates` numbers from `count` on that keeps them within `maxLen`. -/
def firstLength? (messageLen maxLen : Nat) : (candidates count : Nat) → Option Nat
  | 0, _ => none
  | candidates + 1, count =>
    let len := fragmentCount messageLen count
    if len ≤ maxLen then some len else firstLength? messageLen maxLen candidates (count + 1)

/-- The length of the fragments of a message: that of the fewest fragments whose length is at most
`maxLen`. There are never so many fragments that `minLen` times their number exceeds the message,
unless there is only one. -/
def fragmentLength? (messageLen minLen maxLen : Nat) : Option Nat :=
  firstLength? messageLen maxLen (max 1 (messageLen / max 1 minLen)) 1

end UrReplay.Fountain
