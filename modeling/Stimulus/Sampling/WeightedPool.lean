import Stimulus.Sampling.Draw
import Stimulus.Sampling.WeightTable

/-!
# Weighted pools

Weighted draws without replacement. A weighted pool is a bag with as many copies of each member as
its weight; a draw takes one copy, each with the same chance. An empty bag is refilled at the start
of a draw. Totals are signed numbers of 64 bits.
-/
namespace Stimulus.Sampling

open Stimulus.Random

structure WeightedPool where
  weights : List Int
  remaining : List Int
  total : Int
  deriving DecidableEq, Repr

namespace WeightedPool

/-- The number of copies of a list of weights. -/
def copies (weights : List Int) : Int := wrapSigned (totalWeight weights)

def full (weights : List Int) : WeightedPool := ⟨weights, weights, copies weights⟩

def ofWeights (weights : List Int) : Except Fault WeightedPool :=
  match negativeFault? weights with
  | some fault => .error fault
  | none =>
    if totalWeight weights = 0 then .error .zeroCount
    else if !weights.all isSigned then .error .tooWide
    else .ok (full weights)

def capacity (p : WeightedPool) : Int := copies p.weights

def refill (p : WeightedPool) : WeightedPool := full p.weights

/-- Takes one copy of a member. -/
def take (member : Nat) (p : WeightedPool) : Ticket × WeightedPool :=
  let total := p.total - 1
  (⟨member, total == 0⟩, { p with remaining := p.remaining.modify member (· - 1), total })

/-- The pool that a draw takes from. -/
def stocked (p : WeightedPool) : WeightedPool := if p.total = 0 then p.refill else p

def draw (p : WeightedPool) (source : Source) : Draw WeightedPool :=
  let stock := p.stocked
  let refill? := if p.total = 0 then some (.copies p.capacity) else none
  match weightedIndex stock.remaining source with
  | .error failure => { outcome := .error failure, pool := stock, source, refill? }
  | .ok (member, source) =>
    let (ticket, pool) := stock.take member
    { outcome := .ok ticket, pool, source, refill? }

end WeightedPool

end Stimulus.Sampling
