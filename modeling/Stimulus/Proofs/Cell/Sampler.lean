import Stimulus.Proofs.Cell.Choosers
import Stimulus.Proofs.Sampling.Stock

/-!
# Samplers

What the four kinds of samplers have in common: a sampler draws where it has selected no member, it
lets go of the selected member where that is done, and of no other, and the ticket of a member that
was drawn without replacement tells whether its draw has emptied the pool.
-/
namespace Stimulus

open Stimulus.Random Stimulus.Sampling

namespace Chooser

def IsSampler : Chooser → Prop
  | pattern _ => False
  | sample _ | weightedSample _ _ | pool _ _ | weightedPool _ _ => True

/-- The member that a sampler has selected. -/
def held? : Chooser → Option Nat
  | sample current? | weightedSample _ current? => current?
  | pool _ current? | weightedPool _ current? => current?.map Ticket.member
  | pattern _ => none

/-- The ticket of the member that is being played out. -/
def ticket? : Chooser → Option Ticket
  | pool _ current? | weightedPool _ current? => current?
  | pattern _ | sample _ | weightedSample _ _ => none

/-- Whether a sampler is done when its member is: with replacement it always is, and without it is
if nothing is left in the pool. -/
def Closes : Chooser → Prop
  | sample _ | weightedSample _ _ => True
  | pool p _ => p.remaining = []
  | weightedPool p _ => p.total = 0
  | pattern _ => False

/-- A chooser whose ticket tells whether the draw has emptied the pool. -/
def Marked (chooser : Chooser) : Prop :=
  ∀ ticket, chooser.ticket? = some ticket → (ticket.last = true ↔ chooser.Closes)

variable {chooser : Chooser}

theorem marked_of_none (h : chooser.ticket? = none) : chooser.Marked := by
  intro ticket hticket
  rw [h] at hticket
  cases hticket

theorem isSampler_reset : chooser.reset.IsSampler ↔ chooser.IsSampler := by
  cases chooser <;> exact Iff.rfl

theorem Marked.select (h : chooser.Marked) (count : Nat) (w : World) :
    (chooser.select count w).2.1.Marked := by
  cases chooser with
  | pattern cursor => exact h
  | sample current? | weightedSample table current? =>
    cases current? with
    | some member => exact h
    | none => simp only [Chooser.select]; split <;> exact marked_of_none rfl
  | pool p current? | weightedPool p current? =>
    cases current? with
    | some ticket => exact h
    | none =>
      simp only [Chooser.select]
      split
      · exact marked_of_none rfl
      · rename_i ticket hticket
        rintro _ ⟨⟩
        exact p.last_draw hticket

theorem invariant_marked : Invariant fun _ chooser => chooser.Marked where
  initial h := by cases h <;> exact marked_of_none rfl
  reset {_ chooser} _ := by cases chooser <;> exact marked_of_none rfl
  select w h := h.select _ w
  settle {_ chooser} done _ h := by
    cases chooser with
    | pattern | sample | weightedSample => exact marked_of_none rfl
    | pool | weightedPool =>
      cases done with
      | true => exact marked_of_none rfl
      | false => exact h

/-- Nothing is drawn while a member is selected. -/
theorem select_of_held {i : Nat} (h : chooser.held? = some i) (count : Nat) (w : World) :
    chooser.select count w = (.ok i, chooser, w) := by
  cases chooser with
  | pattern cursor => cases h
  | sample current? | weightedSample table current? =>
    cases h
    rfl
  | pool p current? | weightedPool p current? =>
    obtain ⟨ticket, rfl, rfl⟩ := Option.map_eq_some_iff.mp h
    rfl

theorem held?_of_ticket {ticket : Ticket} (h : chooser.ticket? = some ticket) :
    chooser.held? = some ticket.member := by
  cases chooser with
  | pool | weightedPool =>
    cases h
    rfl
  | pattern | sample | weightedSample => cases h

/-- The member that a sampler selects is held by it. -/
theorem held?_select (h : chooser.IsSampler) (count : Nat) (w : World) :
    (chooser.select count w).2.1.held? = (chooser.select count w).1.toOption := by
  cases chooser with
  | pattern cursor => cases h
  | sample current? | weightedSample table current? | pool p current? | weightedPool p current? =>
    cases current? with
    | some current => rfl
    | none => simp only [Chooser.select]; split <;> rfl

/-- A sampler lets go of a member that is done, and of no other. -/
theorem settle_pending (h : chooser.IsSampler) (count : Nat) :
    chooser.settle count false = (false, chooser) := by
  cases chooser with
  | pattern cursor => cases h
  | sample | weightedSample | pool | weightedPool => rfl

theorem settle_done (h : chooser.IsSampler) (hmarked : chooser.Marked) {i : Nat}
    (hheld : chooser.held? = some i) (count : Nat) :
    ((chooser.settle count true).1 = true ↔ chooser.Closes) ∧
      (chooser.settle count true).2.held? = none := by
  cases chooser with
  | pattern cursor => cases h
  | sample current? | weightedSample table current? => exact ⟨iff_of_true rfl trivial, rfl⟩
  | pool p current? | weightedPool p current? =>
    obtain ⟨ticket, rfl, rfl⟩ := Option.map_eq_some_iff.mp hheld
    exact ⟨hmarked ticket rfl, rfl⟩

end Chooser

end Stimulus
