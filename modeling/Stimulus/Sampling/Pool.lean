import Stimulus.Sampling.Draw

/-!
# Pools

Draws without replacement. A pool holds the members that have not been drawn since it was last
full. A draw takes one of them and moves the last one into its place; an empty pool is refilled at
the start of a draw, and never at the end of one.
-/
namespace Stimulus.Sampling

open Stimulus.Random

structure Pool where
  size : Nat
  remaining : List Nat
  deriving DecidableEq, Repr

namespace Pool

def full (size : Nat) : Pool := ⟨size, List.range size⟩

def ofSize (size : Int) : Except Fault Pool :=
  if size ≤ 0 then .error .emptyPool else .ok (full size.toNat)

def refill (p : Pool) : Pool := full p.size

/-- Removes the element at a place; the last element takes the place. -/
def swapRemove (place : Nat) (xs : List Nat) : List Nat :=
  match xs.getLast? with
  | none => []
  | some last => (xs.set place last).dropLast

@[simp] theorem length_swapRemove (place : Nat) (xs : List Nat) :
    (swapRemove place xs).length = xs.length - 1 := by
  unfold swapRemove
  split
  · rename_i h
    simp [List.getLast?_eq_none_iff.mp h]
  · simp

/-- Takes the member at a place of the pool. -/
def take? (place : Nat) (p : Pool) : Option (Ticket × Pool) :=
  p.remaining[place]?.map fun member =>
    let remaining := swapRemove place p.remaining
    (⟨member, remaining.isEmpty⟩, { p with remaining })

/-- The pool that a draw takes from. -/
def stocked (p : Pool) : Pool := if p.remaining.isEmpty then p.refill else p

def draw (p : Pool) (source : Source) : Draw Pool :=
  let stock := p.stocked
  let refill? := if p.remaining.isEmpty then some (.members p.size) else none
  match source.uniformIndex stock.remaining.length with
  | .error fault => { outcome := .error (.fault fault), pool := stock, source, refill? }
  | .ok (place, source) =>
    match stock.take? place with
    | some (ticket, pool) => { outcome := .ok ticket, pool, source, refill? }
    | none => { outcome := .error (.fault .noSuchMember), pool := stock, source, refill? }

end Pool

end Stimulus.Sampling
