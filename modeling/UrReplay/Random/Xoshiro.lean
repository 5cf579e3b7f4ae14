import UrReplay.Random.Sha256
/-!
# UrReplay.Random.Xoshiro

The xoshiro256** generator, seeded with a SHA-256 digest. Both ends of a transfer derive the same
draws from the same seed, so the generator is a plain value: each draw gives a number and the next
generator.
-/

namespace UrReplay

/-- The state of a generator. -/
structure Xoshiro where
  s0 : UInt64
  s1 : UInt64
  s2 : UInt64
  s3 : UInt64
  deriving Repr, DecidableEq

namespace Xoshiro

/-- The `i`-th word of eight bytes. -/
def seedWord (bytes : Bytes) (i : Nat) : UInt64 :=
  UInt64.ofNat (Bytes.value ((bytes.drop (8 * i)).take 8))

/-- The `n`-th number that the SplitMix64 generator draws if it starts from zero. -/
def splitMix (n : UInt64) : UInt64 :=
  let x := n * 0x9E3779B97F4A7C15
  let x := (x ^^^ (x >>> 30)) * 0xBF58476D1CE4E5B9
  let x := (x ^^^ (x >>> 27)) * 0x94D049BB133111EB
  x ^^^ (x >>> 31)

/-- The state in which all draws are zero. -/
def zero : Xoshiro := ⟨0, 0, 0, 0⟩

/-- The generator with a state, or with another one if it would draw nothing but zeros. -/
def ofState (g : Xoshiro) : Xoshiro :=
  if g = zero then ⟨splitMix 1, splitMix 2, splitMix 3, splitMix 4⟩ else g

/-- No generator that is made draws nothing but zeros. -/
theorem ofState_ne_zero (g : Xoshiro) : ofState g ≠ zero := by
  unfold ofState
  split
  · decide
  · assumption

example : ofState zero =
    ⟨0xE220A8397B1DCDAF, 0x6E789E6AA1B965F4, 0x06C45D188009454F, 0xF88BB8A8724C81EC⟩ := by decide

/-- The generator whose state is the digest of a seed. -/
def ofSeed (seed : Bytes) : Xoshiro :=
  let digest := Sha256.digest seed
  ofState ⟨seedWord digest 0, seedWord digest 1, seedWord digest 2, seedWord digest 3⟩

/-- Rotates a word to the left. -/
def rotate (x : UInt64) (n : UInt64) : UInt64 := (x <<< n) ||| (x >>> (64 - n))

/-- Draws 64 bits. -/
def next (g : Xoshiro) : UInt64 × Xoshiro :=
  let s2 := g.s2 ^^^ g.s0
  let s3 := g.s3 ^^^ g.s1
  (rotate (g.s1 * 5) 7 * 9,
    { s0 := g.s0 ^^^ s3, s1 := g.s1 ^^^ s2, s2 := s2 ^^^ (g.s1 <<< 17), s3 := rotate s3 45 })

/-- Draws a number between zero and one: 64 bits, divided by `2 ^ 64`. -/
def nextUnit (g : Xoshiro) : Float × Xoshiro :=
  let (bits, g) := g.next
  (bits.toFloat / 18446744073709551616.0, g)

end Xoshiro

end UrReplay
