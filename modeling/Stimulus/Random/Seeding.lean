/-!
# Seed expansion

Expands a seed of 64 bits into as many words as a generator needs. The two halves of the seed are
hashed into a pool of four words of 32 bits, every word of the pool is mixed into every other one,
and the output words are hashed from the pool in turn.
-/
namespace Stimulus.Random.Seeding

/-- A word folded on itself. -/
def fold (v : UInt32) : UInt32 := v ^^^ (v >>> 16)

/-- Hashes a word with a running multiplier and advances the multiplier by `factor`. -/
def hash (factor multiplier v : UInt32) : UInt32 × UInt32 :=
  let next := multiplier * factor
  (fold ((v ^^^ multiplier) * next), next)

def poolMultiplier : UInt32 := 0x43b0d7e5

def poolFactor : UInt32 := 0x931e8875

def outputMultiplier : UInt32 := 0x8b51f9dd

def outputFactor : UInt32 := 0x58f38ded

def mix (x y : UInt32) : UInt32 := fold (0xca01f9dd * x - 0x4973f715 * y)

/-- Four words and the multiplier that has hashed them. -/
structure Pool where
  words : Vector UInt32 4
  multiplier : UInt32

/-- The hashes of the two halves of the seed and of two zeros. -/
def initialPool (seed : UInt64) : Pool :=
  let (a, h) := hash poolFactor poolMultiplier seed.toUInt32
  let (b, h) := hash poolFactor h (seed >>> 32).toUInt32
  let (c, h) := hash poolFactor h 0
  let (d, h) := hash poolFactor h 0
  ⟨#v[a, b, c, d], h⟩

/-- Mixes the hash of one word into another one. -/
def Pool.mixInto (pool : Pool) (source target : Fin 4) : Pool :=
  let (hashed, h) := hash poolFactor pool.multiplier pool.words[source]
  ⟨pool.words.set target (mix pool.words[target] hashed), h⟩

/-- Every ordered pair of two places of the pool. -/
def pairs : List (Fin 4 × Fin 4) :=
  (List.finRange 4).flatMap fun source =>
    ((List.finRange 4).filter (· ≠ source)).map fun target => (source, target)

def expandedPool (seed : UInt64) : Pool :=
  pairs.foldl (fun pool (source, target) => pool.mixInto source target) (initialPool seed)

/-- Output words from place `i` on. -/
def outputFrom (words : Vector UInt32 4) (multiplier : UInt32) (i : Nat) : Nat → List UInt32
  | 0 => []
  | count + 1 =>
    let (v, h) := hash outputFactor multiplier (words.get ⟨i % 4, Nat.mod_lt i (by decide)⟩)
    v :: outputFrom words h (i + 1) count

/-- Words of 64 bits from pairs of 32 bits, low half first. -/
def joinHalves : List UInt32 → List UInt64
  | low :: high :: rest => (low.toUInt64 ||| (high.toUInt64 <<< 32)) :: joinHalves rest
  | _ => []

/-- The first `count` words of 64 bits that a seed expands to. -/
def words (seed : UInt64) (count : Nat) : List UInt64 :=
  joinHalves (outputFrom (expandedPool seed).words outputMultiplier 0 (2 * count))

end Stimulus.Random.Seeding
