import Stimulus.Random.Seeding

/-!
# The congruential generator

A linear congruential generator of 128 bits whose output is the exclusive or of the two halves of
the state, rotated by its six highest bits.
-/
namespace Stimulus.Random

/-- The increment is odd, so the state runs through all values. -/
structure Pcg where
  state : BitVec 128
  increment : BitVec 128
  odd : increment.getLsbD 0
  deriving DecidableEq, Repr

namespace Pcg

def multiplier : BitVec 128 := 0x2360ED051FC65DA44385DF649FCCF645

def step (g : Pcg) : Pcg := { g with state := g.state * multiplier + g.increment }

/-- The word that a state gives. -/
def output (state : BitVec 128) : UInt64 :=
  let folded := state.extractLsb' 64 64 ^^^ state.extractLsb' 0 64
  .ofBitVec (folded.rotateRight (state.extractLsb' 122 6).toNat)

/-- A number of 128 bits from its high and its low word. -/
def join (high low : UInt64) : BitVec 128 := high.toBitVec ++ low.toBitVec

/-- The generator of a seed. -/
def ofSeed (seed : UInt64) : Pcg :=
  match Seeding.words seed 4 with
  | [v0, v1, v2, v3] =>
    let started := step { state := 0, increment := join v2 v3 <<< 1 ||| 1, odd := by simp }
    step { started with state := started.state + join v0 v1 }
  | _ => { state := 0, increment := 1, odd := by simp }

def next (g : Pcg) : UInt64 × Pcg :=
  let g := g.step
  (output g.state, g)

end Pcg

end Stimulus.Random
