import Stimulus.Random.Seeding

/-!
# The counter generator

A generator that enciphers a counter of 256 bits by ten rounds of multiplications under a key of
two words. Each count gives four words of output, which are handed out one after the other.
-/
namespace Stimulus.Random

/-- Four words of 64 bits, the lowest first. -/
structure Block where
  a : UInt64
  b : UInt64
  c : UInt64
  d : UInt64
  deriving DecidableEq, Repr

namespace Block

def ofCounter (n : BitVec 256) : Block :=
  ⟨.ofBitVec (n.extractLsb' 0 64), .ofBitVec (n.extractLsb' 64 64),
    .ofBitVec (n.extractLsb' 128 64), .ofBitVec (n.extractLsb' 192 64)⟩

def toList (block : Block) : List UInt64 := [block.a, block.b, block.c, block.d]

end Block

structure Philox where
  key : UInt64 × UInt64
  counter : BitVec 256
  /-- Words that are ready to be handed out. -/
  ready : List UInt64
  deriving DecidableEq, Repr

namespace Philox

def firstFactor : UInt64 := 0xD2E7470EE14C6C93

def secondFactor : UInt64 := 0xCA5A826395121157

def firstKeyStep : UInt64 := 0x9E3779B97F4A7C15

def secondKeyStep : UInt64 := 0xBB67AE8584CAA73B

def rounds : Nat := 10

/-- The high word of a product. -/
def highWord (x y : UInt64) : UInt64 := ((x.toNat * y.toNat) >>> 64).toUInt64

def round (key : UInt64 × UInt64) (block : Block) : Block :=
  ⟨highWord secondFactor block.c ^^^ block.b ^^^ key.1, secondFactor * block.c,
    highWord firstFactor block.a ^^^ block.d ^^^ key.2, firstFactor * block.a⟩

def nextKey (key : UInt64 × UInt64) : UInt64 × UInt64 :=
  (key.1 + firstKeyStep, key.2 + secondKeyStep)

/-- The given number of rounds, each with the next key. -/
def encipher (key : UInt64 × UInt64) (block : Block) : Nat → Block
  | 0 => block
  | count + 1 => encipher (nextKey key) (round key block) count

/-- The generator of a seed, before its first word. -/
def ofSeed (seed : UInt64) : Philox :=
  let key := match Seeding.words seed 2 with
    | k :: k' :: _ => (k, k')
    | _ => (0, 0)
  { key, counter := 0, ready := [] }

/-- Hands out a word; an empty store is filled from the next count. -/
def next (g : Philox) : UInt64 × Philox :=
  match g.ready with
  | word :: rest => (word, { g with ready := rest })
  | [] =>
    let counter := g.counter + 1
    let block := encipher g.key (Block.ofCounter counter) rounds
    (block.a, { g with counter, ready := [block.b, block.c, block.d] })

end Philox

end Stimulus.Random
