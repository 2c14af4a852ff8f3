import Stimulus.Diagnostic
import Stimulus.Random.Source

/-!
# Draws

What a draw from a depleting pool gives: a ticket for a member, the pool after the draw, and the
refill that it may have started with.
-/
namespace Stimulus.Sampling

open Stimulus.Random

/-- A drawn member. `last` tells that the draw has emptied the pool. -/
structure Ticket where
  member : Nat
  last : Bool
  deriving DecidableEq, Repr

/-- A refill at the start of a draw, with the number of members or of copies put back. -/
inductive Refill
  | members (count : Nat)
  | copies (count : Int)
  deriving DecidableEq, Repr

structure Draw (Pool : Type) where
  outcome : Except Failure Ticket
  pool : Pool
  source : Source
  refill? : Option Refill := none

end Stimulus.Sampling
