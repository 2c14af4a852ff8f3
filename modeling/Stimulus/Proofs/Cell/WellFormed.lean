import Stimulus.Proofs.Cell.Fair
import Stimulus.Proofs.Cell.Fault

/-!
# Well-formed nodes

In every state a node's bookkeeping makes sense: cursors and selected members are members, what a
pool has given out is not in it any more, and a progression that has to start anew tells that it is
not ready. For the pools all of this follows from one inequality: the member that is held and those
that are left never exceed the full bag.
-/
namespace Stimulus

open Stimulus.Random Stimulus.Sampling

/-- A pool over a number of members, and the ticket of the member that has been drawn from it. -/
structure Sampling.Pool.WellFormed (count : Nat) (p : Pool) (current? : Option Ticket) : Prop where
  size_eq : p.size = count
  nodup : p.remaining.Nodup
  lt_size : ∀ i ∈ p.remaining, i < p.size
  selected : ∀ ticket, current? = some ticket →
    ticket.member < count ∧ ticket.member ∉ p.remaining
  last : ∀ ticket, current? = some ticket → ticket.last = true → p.remaining = []

/-- A weighted pool over a number of members, and the ticket of the member that has been drawn from
it. -/
structure Sampling.WeightedPool.WellFormed (count : Nat) (p : WeightedPool)
    (current? : Option Ticket) : Prop where
  weights_length : p.weights.length = count
  remaining_length : p.remaining.length = count
  remaining_le : ∀ (i : Nat) (c w : Int), p.remaining[i]? = some c → p.weights[i]? = some w →
    0 ≤ c ∧ c ≤ w
  total_eq : p.total = totalWeight p.remaining
  selected : ∀ ticket, current? = some ticket →
    ∃ w, p.weights[ticket.member]? = some w ∧ 0 < w
  last : ∀ ticket, current? = some ticket → ticket.last = true → p.total = 0

namespace Chooser

def WellFormed (count : Nat) : Chooser → Prop
  | pattern cursor => cursor < count ∨ (count = 0 ∧ cursor = 0)
  | sample current? => ∀ i, current? = some i → i < count
  | weightedSample table current? => table.weights.length = count ∧
    ∀ i, current? = some i → ∃ w, table.weights[i]? = some w ∧ 0 < w
  | pool p current? => p.WellFormed count current?
  | weightedPool p current? => p.WellFormed count current?

/-! ## Full bags -/

/-- A sampler without replacement that never owes more than its full bag. -/
structure Balanced (chooser : Chooser) : Prop where
  fair : chooser.Fair chooser.reset.contents
  owed_le : chooser.owed ≤ chooser.reset.contents

variable {chooser : Chooser} {count : Nat}

theorem balanced_of_reset (hsound : chooser.Sound) (hnone : chooser.ticket? = none)
    (hreset : chooser.reset = chooser) : chooser.Balanced := by
  obtain ⟨hfair, howed⟩ := fair_of_reset hsound hnone hreset rfl
  exact ⟨by rwa [hreset], by rw [howed, hreset]⟩

namespace Balanced

theorem reset (h : chooser.Balanced) : chooser.reset.Balanced := by
  cases chooser with
  | pool p current? => exact balanced_of_reset trivial rfl rfl
  | weightedPool p current? =>
    exact balanced_of_reset (WeightedPool.Sound.refill h.fair.sound) rfl rfl
  | pattern | sample | weightedSample => cases h.fair.sound

theorem select (h : chooser.Balanced) (count : Nat) (w : World) :
    (chooser.select count w).2.1.Balanced := by
  obtain ⟨hfair, howed⟩ := h.fair.select count w
  exact ⟨by rwa [reset_select], by rw [reset_select, howed]; exact h.owed_le⟩

theorem settle (h : chooser.Balanced) (count : Nat) (done : Bool) :
    (chooser.settle count done).2.Balanced := by
  cases done with
  | false =>
    rw [settle_pending h.fair.sound.isSampler]
    exact h
  | true =>
    cases hticket : chooser.ticket? with
    | none =>
      cases chooser with
      | pool | weightedPool =>
        cases hticket
        exact h
      | pattern | sample | weightedSample => cases h.fair.sound
    | some ticket =>
      obtain ⟨-, hfair, howed⟩ := h.fair.settle_done hticket count
      exact ⟨by rwa [reset_settle], by rw [reset_settle, howed]; exact owedAfter_le h.owed_le _⟩

theorem ticket_le (h : chooser.Balanced) {ticket : Ticket}
    (hticket : chooser.ticket? = some ticket) :
    ticket.member ::ₘ chooser.contents ≤ chooser.reset.contents :=
  owed_of_ticket hticket ▸ h.owed_le

theorem contents_le (h : chooser.Balanced) : chooser.contents ≤ chooser.reset.contents := by
  cases hticket : chooser.ticket? with
  | some ticket => exact (Multiset.le_cons_self _ _).trans (h.ticket_le hticket)
  | none =>
    have howed := h.owed_le
    rw [owed_of_none hticket] at howed
    split at howed
    · rename_i hempty
      rw [hempty]
      exact Multiset.zero_le _
    · exact howed

theorem wellFormed_pool {p : Pool} {current? : Option Ticket} (h : (pool p current?).Balanced)
    (hsize : p.size = count) : p.WellFormed count current? := by
  have hle : (p.remaining : Multiset Nat) ≤ List.range p.size := h.contents_le
  have hheld (ticket : Ticket) (hticket : current? = some ticket) :
      ticket.member ::ₘ (p.remaining : Multiset Nat) ≤ List.range p.size := h.ticket_le hticket
  -- The full bag has every member once, and so has every part of it.
  have hrange : (List.range p.size : Multiset Nat).Nodup := List.nodup_range
  refine ⟨hsize, Multiset.nodup_of_le hle hrange, fun i hi => ?_, fun ticket hticket => ?_,
    fun ticket hticket hlast => ?_⟩
  · exact List.mem_range.mp (Multiset.subset_of_le hle hi)
  · have hmem := Multiset.subset_of_le (hheld ticket hticket) (Multiset.mem_cons_self _ _)
    have hnodup := Multiset.nodup_of_le (hheld ticket hticket) hrange
    exact ⟨hsize ▸ List.mem_range.mp hmem, (Multiset.nodup_cons.mp hnodup).1⟩
  · have hempty := (h.fair.last ticket hticket).mp hlast
    exact (Multiset.coe_eq_zero p.remaining).mp hempty

theorem wellFormed_weightedPool {p : WeightedPool} {current? : Option Ticket}
    (h : (weightedPool p current?).Balanced) (hweights : p.weights.length = count)
    (hremaining : p.remaining.length = count) : p.WellFormed count current? := by
  have hsound : p.Sound := h.fair.sound
  have hle : copiesOf p.remaining ≤ copiesOf p.weights := h.contents_le
  refine ⟨hweights, hremaining, fun i c w hc hw => ?_, hsound.total_eq, fun ticket hticket => ?_,
    fun ticket hticket hlast => ?_⟩
  · have hcount := Multiset.count_le_of_le i hle
    rw [count_copiesOf, count_copiesOf, List.getD_eq_getElem?_getD, List.getD_eq_getElem?_getD, hc,
      hw] at hcount
    have hc' := hsound.counts_nonneg c (List.mem_of_getElem? hc)
    have hw' := hsound.weights_nonneg w (List.mem_of_getElem? hw)
    simp only [Option.getD_some] at hcount
    omega
  · have hmem := Multiset.subset_of_le (h.ticket_le hticket) (Multiset.mem_cons_self _ _)
    have hpos : 0 < (copiesOf p.weights).count ticket.member := Multiset.count_pos.mpr hmem
    rw [count_copiesOf, List.getD_eq_getElem?_getD] at hpos
    cases hw : p.weights[ticket.member]? with
    | none => simp [hw] at hpos
    | some w =>
      rw [hw, Option.getD_some] at hpos
      exact ⟨w, rfl, by omega⟩
  · exact hsound.total_eq_zero_iff.mpr ((h.fair.last ticket hticket).mp hlast)

end Balanced

/-! ## Invariants -/

/-- Whether a chooser is a sampler without replacement whose total is a signed number of 64 bits. -/
def Depletes : Chooser → Prop
  | pool _ _ => True
  | weightedPool p _ => totalWeight p.weights ≤ Source.greatestSigned
  | pattern _ | sample _ | weightedSample _ _ => False

theorem depletes_reset : chooser.reset.Depletes ↔ chooser.Depletes := by
  cases chooser <;> exact Iff.rfl

theorem invariant_balanced : Invariant fun _ chooser => chooser.Depletes → chooser.Balanced where
  initial := by
    intro count chooser h hdepletes
    cases h with
    | pool hpos => exact balanced_of_reset trivial rfl rfl
    | weightedPool _ hpool =>
      obtain ⟨hnonneg, -, -, rfl⟩ := WeightedPool.ofWeights_eq_ok hpool
      exact balanced_of_reset (WeightedPool.sound_full hnonneg hdepletes) rfl rfl
    | pattern | sample | weightedSample => cases hdepletes
  reset h hdepletes := (h (depletes_reset.mp hdepletes)).reset
  select w h hdepletes := by
    rw [← depletes_reset, reset_select, depletes_reset] at hdepletes
    exact (h hdepletes).select _ w
  settle done _ h hdepletes := by
    rw [← depletes_reset, reset_settle, depletes_reset] at hdepletes
    exact (h hdepletes).settle _ done

/-- A pattern without members that stands at its start, or a weighted sample whose selected member
has a weight. -/
def Placed (count : Nat) : Chooser → Prop
  | pattern cursor => count = 0 → cursor = 0
  | weightedSample table current? =>
    (∀ w ∈ table.weights, 0 ≤ w) ∧ table.sums = runningSums 0 table.weights ∧
      ∀ i, current? = some i → ∃ w, table.weights[i]? = some w ∧ 0 < w
  | sample _ | pool _ _ | weightedPool _ _ => True

theorem Placed.select (h : chooser.Placed count) (w : World) :
    (chooser.select count w).2.1.Placed count := by
  cases chooser with
  | pattern cursor => exact h
  | weightedSample table current? =>
    obtain ⟨hweights, hsums, hcurrent⟩ := h
    cases current? with
    | some member => exact ⟨hweights, hsums, hcurrent⟩
    | none =>
      simp only [Chooser.select]
      split
      · exact ⟨hweights, hsums, by simp⟩
      · rename_i member t hdrawn
        refine ⟨hweights, hsums, ?_⟩
        rintro _ ⟨⟩
        rw [WeightTable.draw, hsums] at hdrawn
        obtain ⟨r, hr, rfl⟩ := cumulativeIndex_eq_ok hdrawn
        obtain ⟨hlow, hhigh⟩ := Source.uniformInt_mem hr
        rw [cumulativeTotal] at hhigh
        exact locate_runningSums hweights rfl hlow (by omega)
  | sample current? | pool p current? | weightedPool p current? =>
    cases current? with
    | some ticket => trivial
    | none => simp only [Chooser.select]; split <;> trivial

theorem invariant_placed : Invariant Placed where
  initial h := by
    cases h with
    | pattern => exact fun _ => rfl
    | weightedSample _ htable =>
      obtain ⟨hnonneg, -, rfl⟩ := WeightTable.ofWeights_eq_ok htable
      exact ⟨hnonneg, rfl, by simp⟩
    | sample | pool | weightedPool => trivial
  reset {count chooser} h := by
    cases chooser with
    | pattern cursor => exact fun _ => rfl
    | weightedSample table current? => exact ⟨h.1, h.2.1, by simp⟩
    | sample | pool | weightedPool => trivial
  select w h := h.select w
  settle {count chooser} done hpos h := by
    cases chooser with
    | pattern cursor => exact fun hzero => absurd hzero (by omega)
    | weightedSample table current? =>
      cases done with
      | false => exact h
      | true => exact ⟨h.1, h.2.1, by simp⟩
    | sample | pool | weightedPool => trivial

theorem wellFormed_of_invariants (hfits : chooser.Fits count) (hplaced : chooser.Placed count)
    (hbalanced : chooser.Depletes → chooser.Balanced)
    (htotal : ∀ p current?, chooser = weightedPool p current? →
      totalWeight p.weights ≤ Source.greatestSigned) : chooser.WellFormed count := by
  cases chooser with
  | pattern cursor =>
    rcases Nat.eq_zero_or_pos count with hzero | hpos
    · exact .inr ⟨hzero, hplaced hzero⟩
    · exact .inl (hfits hpos)
  | sample current? => exact hfits
  | weightedSample table current? => exact ⟨hfits.2.1, hplaced.2.2⟩
  | pool p current? => exact (hbalanced trivial).wellFormed_pool hfits.1.size
  | weightedPool p current? =>
    exact (hbalanced (htotal p current? rfl)).wellFormed_weightedPool hfits.1.weights_length
      hfits.1.remaining_length

end Chooser

namespace Cell

/-- A sequence tells that it is ready unless it has to start anew. -/
def Announced : Cell → Prop
  | sequence _ _ _ p r => r.ready = true ↔ p.needsReset = false
  | _ => True

theorem lasting_announced : Lasting Announced where
  fresh {c} h := by
    cases c with
    | sequence first last increment p r =>
      obtain ⟨rfl, rfl⟩ := h
      exact iff_of_false (by simp) (by simp)
    | _ => trivial
  reset {c} h := by
    cases c with
    | sequence => exact iff_of_false (by simp) (by simp)
    | _ => trivial
  step {c} advance w h := by
    cases c with
    | sequence first last increment p r =>
      simp only [step]
      split
      · exact h
      · split
        · exact h
        · split
          · exact h
          · split
            · exact h
            · exact iff_of_true rfl rfl
    | leaf | copy | unary => trivial
    | range | choice | binary =>
      simp only [step]
      split
      · trivial
      · split <;> trivial

/-- A node whose bookkeeping makes sense. -/
def WellFormed : Cell → Prop
  | choice chooser members _ => chooser.WellFormed members.length
  | node => node.Announced

/-- A node whose chooser selects, if it selects at all, one of the members, whatever the world is.
Only a pattern without members is let off. -/
def Safe : Cell → Prop
  | choice chooser members _ => ((∃ cursor, chooser = .pattern cursor) → 0 < members.length) →
    ∀ w i, (chooser.select members.length w).1 = .ok i → i < members.length
  | _ => True

/-- A node that keeps all invariants. -/
structure Regular (node : Cell) : Prop where
  fits : node.ChooserHas Chooser.Fits
  placed : node.ChooserHas Chooser.Placed
  balanced : node.ChooserHas fun _ chooser => chooser.Depletes → chooser.Balanced
  announced : node.Announced

theorem lasting_regular : Lasting Regular where
  fresh h :=
    { fits := (lasting_chooserHas Chooser.invariant_fits).fresh h
      placed := (lasting_chooserHas Chooser.invariant_placed).fresh h
      balanced := (lasting_chooserHas Chooser.invariant_balanced).fresh h
      announced := lasting_announced.fresh h }
  reset h :=
    { fits := (lasting_chooserHas Chooser.invariant_fits).reset h.fits
      placed := (lasting_chooserHas Chooser.invariant_placed).reset h.placed
      balanced := (lasting_chooserHas Chooser.invariant_balanced).reset h.balanced
      announced := lasting_announced.reset h.announced }
  step advance w h :=
    { fits := (lasting_chooserHas Chooser.invariant_fits).step advance w h.fits
      placed := (lasting_chooserHas Chooser.invariant_placed).step advance w h.placed
      balanced := (lasting_chooserHas Chooser.invariant_balanced).step advance w h.balanced
      announced := lasting_announced.step advance w h.announced }

end Cell

/-- An expression in which the weights of every sampler add up to a signed number of 64 bits. -/
def Expr.TotalsFit (e : Expr) : Prop :=
  ∀ members, .weightedSample members ∈ e.walk ∨ .weightedPool members ∈ e.walk →
    totalWeight (Expr.weights members) ≤ Source.greatestSigned

/-- The total of a weighted pool is the one of its expression. -/
theorem Expr.TotalsFit.totalWeight_le {e : Expr} (h : e.TotalsFit) {p : WeightedPool}
    {current? : Option Ticket} {members : List Cell} {r : Report}
    (hexpr : (Cell.choice (.weightedPool p current?) members r).expr ∈ e.walk)
    (hlength : p.weights.length = members.length) :
    totalWeight p.weights ≤ Source.greatestSigned := by
  have hfit := h _ (.inr hexpr)
  rwa [weights, List.map_fst_zip (by rw [Cell.memberExprs_eq_map, List.length_map,
    hlength])] at hfit

namespace Cell

theorem Regular.wellFormed {node : Cell} (h : node.Regular) {e : Expr} (hexpr : node.expr ∈ e.walk)
    (hfit : e.TotalsFit) : node.WellFormed := by
  cases node with
  | choice chooser members r =>
    have hfits := h.fits chooser members r rfl
    refine Chooser.wellFormed_of_invariants hfits (h.placed chooser members r rfl)
      (h.balanced chooser members r rfl) ?_
    rintro p current? rfl
    exact hfit.totalWeight_le hexpr hfits.1.weights_length
  | _ => exact h.announced

theorem Regular.safe {node : Cell} (h : node.Regular) : node.Safe := by
  cases node with
  | choice chooser members r =>
    intro hmembers w i hi
    exact ((h.fits chooser members r rfl).select w).2 i hi hmembers
  | _ => trivial

end Cell

end Stimulus
