import Stimulus.Proofs.Sampling.Stock

/-!
# Histories of pools

A pool is refilled and drawn from, in any order and with any sources. What has been drawn since the
last refill and what is in the pool make up the full bag, also where a draw has started with a
refill and where one has failed.
-/
namespace Stimulus.Sampling

open Stimulus.Random

/-- What has been drawn since the last refill once a draw is made, by what was before it. -/
def Draw.drawn {Pool : Type} (d : Draw Pool) (before : List Nat) : List Nat :=
  (if d.refill?.isSome then [] else before) ++ (d.outcome.toOption.map Ticket.member).toList

section

variable {Pool : Type} (draw : Pool → Source → Draw Pool) (refill : Pool → Pool)

/-- The pools that refills and draws lead to, each with the members drawn since the last refill. -/
inductive History (start : Pool) : Pool → List Nat → Prop
  | start : History start start []
  | refill {p : Pool} {drawn : List Nat} (h : History start p drawn) : History start (refill p) []
  | draw {p : Pool} {drawn : List Nat} (h : History start p drawn) (s : Source) :
      History start (draw p s).pool ((draw p s).drawn drawn)

/-- Pools that hold a bag. A refill makes it full; a draw takes from it, or from the full bag if the
draw starts with a refill. -/
structure Bagged (Valid : Pool → Prop) (contents : Pool → Multiset Nat) (full : Multiset Nat) :
    Prop where
  refill : ∀ {p}, Valid p → Valid (refill p) ∧ contents (refill p) = full
  draw : ∀ {p}, Valid p → ∀ s, Valid (draw p s).pool ∧
    (draw p s).TakesFrom contents (if (draw p s).refill?.isSome then full else contents p)

variable {draw refill} {Valid : Pool → Prop} {contents : Pool → Multiset Nat} {full : Multiset Nat}

/-- A draw moves a member from the stock to those that have been drawn, or moves none. -/
theorem Draw.TakesFrom.drawn_add {d : Draw Pool} {stock : Multiset Nat}
    (h : d.TakesFrom contents stock) (before : List Nat) :
    (d.drawn before : Multiset Nat) + contents d.pool =
      (if d.refill?.isSome then [] else before : List Nat) + stock := by
  rw [Draw.drawn, ← Multiset.coe_add, add_assoc]
  cases houtcome : d.outcome with
  | error failure =>
    rw [h.error failure houtcome]
    exact congrArg _ (zero_add stock)
  | ok ticket =>
    obtain ⟨hmem, hrest, -⟩ := h.ok ticket houtcome
    rw [hrest]
    exact congrArg _ (Multiset.cons_erase hmem)

/-- What has been drawn since the last refill and what is left make up the full bag. -/
theorem Bagged.drawn_add_contents (h : Bagged draw refill Valid contents full) {start p : Pool}
    {drawn : List Nat} (hvalid : Valid start) (hfull : contents start = full)
    (hp : History draw refill start p drawn) :
    Valid p ∧ (drawn : Multiset Nat) + contents p = full := by
  induction hp with
  | start => exact ⟨hvalid, by simpa using hfull⟩
  | refill _ ih =>
    obtain ⟨hrefill, hcontents⟩ := h.refill ih.1
    exact ⟨hrefill, by simpa using hcontents⟩
  | @draw p drawn _ s ih =>
    obtain ⟨hdraw, htakes⟩ := h.draw ih.1 s
    refine ⟨hdraw, ?_⟩
    rw [htakes.drawn_add]
    split
    · exact zero_add full
    · exact ih.2

end

end Stimulus.Sampling
