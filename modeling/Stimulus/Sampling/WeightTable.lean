import Stimulus.Diagnostic
import Stimulus.Random.Source

/-!
# Weight tables

Weighted draws with replacement. A table holds the running sums of its weights, signed numbers of 64
bits. A draw takes a number below the total and looks by bisection for the first running sum above
that number, so a member of weight zero is never drawn.
-/
namespace Stimulus.Sampling

open Stimulus.Random

/-- Whether an integer is a signed number of 64 bits. -/
def isSigned (x : Int) : Bool := Source.leastSigned ≤ x && x ≤ Source.greatestSigned

/-- The signed number of 64 bits that agrees with an integer modulo `2 ^ 64`. -/
def wrapSigned (x : Int) : Int := x.bmod (1 <<< 64)

/-- The running sums of weights behind a given sum. -/
def runningSums (sum : Int) : List Int → List Int
  | [] => []
  | w :: rest =>
    let next := wrapSigned (sum + w)
    next :: runningSums next rest

/-- The running sums of a list of weights. -/
def cumulativeWeights (weights : List Int) : Except Fault (List Int) :=
  if !weights.all isSigned then .error .tooWide
  else if weights.any (· < 0) then .error (.negativeTable weights)
  else .ok (runningSums 0 weights)

/-- The total of a table of running sums. -/
def cumulativeTotal (sums : List Int) : Int := sums.getLast?.getD 0

/-- The place from `start` to `stop` where the sums above `r` begin, found by halving. -/
def bisect (sums : List Int) (r : Int) (start stop : Nat) : Nat :=
  if start < stop then
    let middle := start + (stop - start) / 2
    if sums.getD middle 0 ≤ r then bisect sums r (middle + 1) stop else bisect sums r start middle
  else start
termination_by stop - start

/-- The place of the first running sum above `r`. If the sums have wrapped around, it is a place of
such a sum, but there may be others before it. -/
def locate (sums : List Int) (r : Int) : Nat := bisect sums r 0 sums.length

/-- Draws a place of a table of running sums, each as often as its weight. -/
def cumulativeIndex (sums : List Int) (source : Source) : Except Failure (Nat × Source) :=
  let total := cumulativeTotal sums
  if total ≤ 0 then .error (.cause .noEligibleMember)
  else match source.uniformInt 0 (total - 1) with
    | .error fault => .error (.fault fault)
    | .ok (r, source) => .ok (locate sums r, source)

def weightedIndex (weights : List Int) (source : Source) : Except Failure (Nat × Source) :=
  match cumulativeWeights weights with
  | .error fault => .error (.fault fault)
  | .ok sums => cumulativeIndex sums source

/-- The fault of a list of weights of which some are negative. -/
def negativeFault? (weights : List Int) : Option Fault :=
  let negative := weights.filter (· < 0)
  if negative.isEmpty then none else some (.negativeWeights negative)

structure WeightTable where
  weights : List Int
  sums : List Int
  deriving DecidableEq, Repr

namespace WeightTable

def ofWeights (weights : List Int) : Except Fault WeightTable :=
  if weights.isEmpty then .error .emptyTable
  else match negativeFault? weights with
    | some fault => .error fault
    | none => (cumulativeWeights weights).map fun sums => ⟨weights, sums⟩

def total (t : WeightTable) : Int := cumulativeTotal t.sums

def draw (t : WeightTable) (source : Source) : Except Failure (Nat × Source) :=
  cumulativeIndex t.sums source

end WeightTable

end Stimulus.Sampling
