import Stimulus.Proofs.Cell.Sampler

/-!
# Samplers without replacement

A sampler without replacement owes the members that it has not played out in this round: those left
in its pool, and the one that has been drawn but is not done. A draw and a refill move members
between the two and change nothing in what is owed; only a member that is done is taken off.
-/
namespace Stimulus

open Stimulus.Sampling

namespace Chooser

/-- What is left in a pool. -/
def contents : Chooser → Multiset Nat
  | pool p _ => p.contents
  | weightedPool p _ => p.contents
  | pattern _ | sample _ | weightedSample _ _ => 0

/-- The members to be played out in this round. With the last one done, the next round is owed. -/
def owed (chooser : Chooser) : Multiset Nat :=
  match chooser.ticket? with
  | some ticket => ticket.member ::ₘ chooser.contents
  | none => if chooser.contents = 0 then chooser.reset.contents else chooser.contents

/-- Whether a chooser is a sampler without replacement whose counts are right. -/
def Sound : Chooser → Prop
  | pool _ _ => True
  | weightedPool p _ => p.Sound
  | pattern _ | sample _ | weightedSample _ _ => False

/-- A sampler without replacement over a full bag whose ticket tells when the bag is empty. -/
structure Fair (full : Multiset Nat) (chooser : Chooser) : Prop where
  sound : chooser.Sound
  contents_reset : chooser.reset.contents = full
  last : ∀ ticket, chooser.ticket? = some ticket → (ticket.last = true ↔ chooser.contents = 0)

variable {full : Multiset Nat} {chooser other : Chooser}

theorem owed_of_ticket {ticket : Ticket} (h : chooser.ticket? = some ticket) :
    chooser.owed = ticket.member ::ₘ chooser.contents := by
  rw [owed, h]

theorem owed_of_none (h : chooser.ticket? = none) :
    chooser.owed =
      if chooser.contents = 0 then chooser.reset.contents else chooser.contents := by
  rw [owed, h]

theorem fair_of_none (hsound : chooser.Sound) (hfull : chooser.reset.contents = full)
    (hnone : chooser.ticket? = none) : chooser.Fair full where
  sound := hsound
  contents_reset := hfull
  last ticket hticket := by
    rw [hnone] at hticket
    cases hticket

/-- A sampler that a reset does not change has its full bag before it. -/
theorem fair_of_reset (hsound : chooser.Sound) (hnone : chooser.ticket? = none)
    (hreset : chooser.reset = chooser) (hfull : chooser.contents = full) :
    chooser.Fair full ∧ chooser.owed = full := by
  constructor
  · exact fair_of_none hsound (by rw [hreset, hfull]) hnone
  · rw [owed_of_none hnone, hreset, ite_self, hfull]

theorem fair_pool_full (size : Nat) :
    (pool (.full size) none).Fair (bag (List.replicate size 1)) ∧
      (pool (.full size) none).owed = bag (List.replicate size 1) :=
  fair_of_reset trivial rfl rfl (bag_replicate_one size).symm

theorem fair_weightedPool_full {weights : List Int} (hweights : ∀ w ∈ weights, 0 ≤ w)
    (hfits : totalWeight weights ≤ Random.Source.greatestSigned) :
    (weightedPool (.full weights) none).Fair (copiesOf weights) ∧
      (weightedPool (.full weights) none).owed = copiesOf weights :=
  fair_of_reset (WeightedPool.sound_full hweights hfits) rfl rfl rfl

/-- A pool without a ticket owes what the next draw takes from. -/
theorem owed_pool_none (p : Pool) : (pool p none).owed = p.stocked.contents := by
  have hempty : (pool p none).contents = 0 ↔ p.remaining.isEmpty := by
    simp [contents, Pool.contents]
  rw [owed_of_none rfl, Pool.stocked]
  by_cases h : p.remaining.isEmpty
  · rw [if_pos (hempty.mpr h), if_pos h]
    rfl
  · rw [if_neg (h ∘ hempty.mp), if_neg h]
    rfl

theorem owed_weightedPool_none {p : WeightedPool} (hp : p.Sound) :
    (weightedPool p none).owed = p.stocked.contents := by
  have hempty : (weightedPool p none).contents = 0 ↔ p.total = 0 := hp.total_eq_zero_iff.symm
  rw [owed_of_none rfl, WeightedPool.stocked]
  by_cases h : p.total = 0
  · rw [if_pos (hempty.mpr h), if_pos h]
    rfl
  · rw [if_neg (h ∘ hempty.mp), if_neg h]
    rfl

/-- A draw changes nothing in what is owed. If it fails, what was owed is in the pool; otherwise the
member that is drawn is still owed. -/
theorem Fair.of_draw {Pool : Type} {d : Draw Pool} {contentsOf : Pool → Multiset Nat}
    (h : chooser.Fair full) (hnone : chooser.ticket? = none)
    (hdraw : d.TakesFrom contentsOf chooser.owed) (hsound : other.Sound)
    (hreset : other.reset = chooser.reset) (hcontents : other.contents = contentsOf d.pool)
    (hticket : other.ticket? = d.outcome.toOption) :
    other.Fair full ∧ other.owed = chooser.owed := by
  cases houtcome : d.outcome with
  | error failure =>
    rw [houtcome] at hticket
    have hstock := hdraw.error failure houtcome
    constructor
    · exact fair_of_none hsound (hreset ▸ h.contents_reset) hticket
    · rw [owed_of_none hticket, hreset, hcontents, hstock, owed_of_none hnone]
      by_cases hzero : chooser.contents = 0
      · rw [if_pos hzero, ite_self]
      · rw [if_neg hzero, if_neg hzero]
  | ok ticket =>
    rw [houtcome] at hticket
    obtain ⟨hmem, hrest, hlast⟩ := hdraw.ok ticket houtcome
    constructor
    · refine ⟨hsound, hreset ▸ h.contents_reset, fun held hheld => ?_⟩
      rw [hticket] at hheld
      cases hheld
      rwa [hcontents]
    · rw [owed_of_ticket hticket, hcontents, hrest, Multiset.cons_erase hmem]

theorem sound_select (h : chooser.Sound) (count : Nat) (w : World) :
    (chooser.select count w).2.1.Sound := by
  cases chooser with
  | pool p current? =>
    cases current? with
    | some ticket => trivial
    | none => simp only [select]; split <;> trivial
  | weightedPool p current? =>
    cases current? with
    | some ticket => exact h
    | none => simp only [select]; split <;> exact WeightedPool.sound_draw h w.source
  | _ => cases h

theorem Fair.select (h : chooser.Fair full) (count : Nat) (w : World) :
    (chooser.select count w).2.1.Fair full ∧
      (chooser.select count w).2.1.owed = chooser.owed := by
  have hsound := sound_select h.sound count w
  have hreset := chooser.reset_select count w
  cases chooser with
  | pool p current? =>
    cases current? with
    | some ticket => exact ⟨h, rfl⟩
    | none =>
      have hdraw := p.takesFrom_draw w.source
      rw [← owed_pool_none] at hdraw
      simp only [Chooser.select] at hsound hreset ⊢
      split
      · rename_i failure hfailure
        simp only [hfailure] at hsound hreset
        exact h.of_draw rfl hdraw hsound hreset rfl (by rw [hfailure]; rfl)
      · rename_i ticket hticket
        simp only [hticket] at hsound hreset
        exact h.of_draw rfl hdraw hsound hreset rfl (by rw [hticket]; rfl)
  | weightedPool p current? =>
    cases current? with
    | some ticket => exact ⟨h, rfl⟩
    | none =>
      have hdraw := WeightedPool.takesFrom_draw h.sound w.source
      rw [← owed_weightedPool_none h.sound] at hdraw
      simp only [Chooser.select] at hsound hreset ⊢
      split
      · rename_i failure hfailure
        simp only [hfailure] at hsound hreset
        exact h.of_draw rfl hdraw hsound hreset rfl (by rw [hfailure]; rfl)
      · rename_i ticket hticket
        simp only [hticket] at hsound hreset
        exact h.of_draw rfl hdraw hsound hreset rfl (by rw [hticket]; rfl)
  | pattern | sample | weightedSample => cases h.sound

theorem Sound.isSampler (h : chooser.Sound) : chooser.IsSampler := by
  cases chooser with
  | pool | weightedPool => trivial
  | pattern | sample | weightedSample => cases h

theorem Sound.held?_eq (h : chooser.Sound) : chooser.held? = chooser.ticket?.map Ticket.member := by
  cases chooser with
  | pool | weightedPool => rfl
  | pattern | sample | weightedSample => cases h

/-- The member that a sampler without replacement selects is the one of its ticket. -/
theorem Fair.ticket_select (h : chooser.Fair full) (count : Nat) (w : World) :
    (chooser.select count w).2.1.ticket?.map Ticket.member =
      (chooser.select count w).1.toOption := by
  rw [← (sound_select h.sound count w).held?_eq, held?_select h.sound.isSampler]

/-- A member that is done is taken off, and the sampler is done if it was the last one. -/
theorem Fair.settle_done (h : chooser.Fair full) {ticket : Ticket}
    (hticket : chooser.ticket? = some ticket) (count : Nat) :
    ((chooser.settle count true).1 = true ↔ chooser.owed.erase ticket.member = 0) ∧
      (chooser.settle count true).2.Fair full ∧
      (chooser.settle count true).2.owed = owedAfter full chooser.owed ticket.member := by
  have hrest : chooser.owed.erase ticket.member = chooser.contents := by
    rw [owed_of_ticket hticket, Multiset.erase_cons_head]
  rw [owedAfter, hrest]
  cases chooser with
  | pool p current? =>
    cases hticket
    refine ⟨h.last ticket rfl, fair_of_none trivial h.contents_reset rfl, ?_⟩
    rw [owed_of_none rfl, ← h.contents_reset]
    rfl
  | weightedPool p current? =>
    cases hticket
    refine ⟨h.last ticket rfl, fair_of_none h.sound h.contents_reset rfl, ?_⟩
    rw [owed_of_none rfl, ← h.contents_reset]
    rfl
  | pattern | sample | weightedSample => cases h.sound

end Chooser

end Stimulus
