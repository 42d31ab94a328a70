/-
Hashing of node triples and of cache keys.

Two families of hashes live here. The pairing functions code tuples of small numbers into one
word and serve the computed tables; all arithmetic is on 64-bit words and wraps, so nested
pairings of large ids stay usable. The triple hashes serve the open-addressing node tables:

* **`pair`** — the elegant pairing of two words, injective on pairs of 32-bit ids;
* **`triple`** — where the probe for a node record starts;
* **`stride`** — how far the probe jumps. It is odd, so over a power-of-two table the probe meets
  every slot once before it repeats (`stride_odd`).
-/

namespace DecisionDiagram.Hash

/-- The elegant pairing: pairs whose larger entry is `m` fill the words from `m²` to
`m² + 2m`. -/
def pair (a b : UInt64) : UInt64 :=
  if a < b then b * b + a else a * a + a + b

/-- Three words, the first two paired first. -/
def pair3 (a b c : UInt64) : UInt64 := pair (pair a b) c

/-- Four words, paired two by two. -/
def pair4 (a b c d : UInt64) : UInt64 := pair (pair a b) (pair c d)

/-- Folds the high half of a word into its low half. -/
def fold (k : UInt64) : UInt64 := k ^^^ (k >>> 33)

/-- Spreads every bit of `k` over the whole word: two multiplications between three folds. -/
def mix (k : UInt64) : UInt64 :=
  fold (fold (fold k * 0xff51afd7ed558ccd) * 0xc4ceb9fe1a85ec53)

/-- Rotation to the left by `n` bits, for `n` from 1 to 63. -/
def rotateLeft (k n : UInt64) : UInt64 := (k <<< n) ||| (k >>> (64 - n))

/-- Where the probe for the record `(level, low, high)` starts. -/
def triple (level low high : Nat) : UInt64 :=
  mix (level.toUInt64 * 0x9e3779b97f4a7c15 ^^^ low.toUInt64 * 0xc2b2ae3d27d4eb4f
    ^^^ rotateLeft high.toUInt64 32)

/-- How far the probe for the record `(level, low, high)` jumps. -/
def stride (level low high : Nat) : UInt64 :=
  mix (high.toUInt64 * 0x165667b19e3779f9 ^^^ rotateLeft level.toUInt64 21
    ^^^ low.toUInt64 * 0x27d4eb2f165667c5) ||| 1

/-- The stride is odd. -/
theorem stride_odd (level low high : Nat) : (stride level low high).toNat % 2 = 1 := by
  simp [stride]

end DecisionDiagram.Hash
