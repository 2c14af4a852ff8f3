import Mathlib.Data.List.GetD
import Stimulus.Proofs.Sampling.Dealing
import Stimulus.Proofs.Sampling.Exact
import Stimulus.Proofs.Sampling.History

/-!
# Bags

Weighted draws are proportional to the weights, and exactly so. The running sums cut the numbers
below the total into one interval for each member, as long as its weight. A weighted pool draws from
the counts that are left, so it takes each of its copies by one number.
-/
namespace Stimulus.Sampling

open Stimulus.Random

/-! ## Intervals of the members -/

/-- Of the numbers from a sum on, as many as the total of some weights, each member has as many as
its weight. -/
theorem countP_locate {weights : List Int} {sum : Int} (hweights : ∀ w ∈ weights, 0 ≤ w)
    (hsum : 0 ≤ sum) (hfits : sum + totalWeight weights ≤ Source.greatestSigned) (i : Nat) :
    (List.range (totalWeight weights).toNat).countP
        (fun r : Nat => locate (runningSums sum weights) (sum + r) = i) =
      (weights.getD i 0).toNat := by
  induction weights generalizing sum i with
  | nil => simp [totalWeight]
  | cons w rest ih =>
    rw [List.forall_mem_cons] at hweights
    obtain ⟨hw, hrest⟩ := hweights
    have hnonneg := totalWeight_nonneg hrest
    rw [totalWeight] at hfits ⊢
    have hnext : wrapSigned (sum + w) = sum + w := wrapSigned_of_mem (by omega) (by omega)
    have hsorted : ((sum + w) :: runningSums (sum + w) rest).Pairwise (· ≤ ·) := by
      have h := pairwise_runningSums (List.forall_mem_cons.mpr ⟨hw, hrest⟩) hsum hfits
      rwa [runningSums, hnext] at h
    -- The numbers of the first member, and those of the others behind them.
    have hfirst : (List.range w.toNat).countP
        (fun r : Nat => locate (runningSums sum (w :: rest)) (sum + r) = i) =
          if i = 0 then w.toNat else 0 := by
      have hlocate : ∀ r ∈ List.range w.toNat,
          locate (runningSums sum (w :: rest)) (sum + r) = 0 := by
        intro r hr
        rw [List.mem_range] at hr
        rw [runningSums, hnext, locate_cons hsorted, if_neg (by omega)]
      split
      · rename_i hi
        rw [List.countP_eq_length.mpr fun r hr => by simp [hlocate r hr, hi], List.length_range]
      · rename_i hi
        exact List.countP_eq_zero.mpr fun r hr => by simp [hlocate r hr, Ne.symm hi]
    have hothers : (List.range (totalWeight rest).toNat).countP
        (fun r : Nat => locate (runningSums sum (w :: rest)) (sum + (w.toNat + r : Nat)) = i) =
          if i = 0 then 0 else (rest.getD (i - 1) 0).toNat := by
      have hlocate (r : Nat) : locate (runningSums sum (w :: rest)) (sum + (w.toNat + r : Nat)) =
          locate (runningSums (sum + w) rest) (sum + w + r) + 1 := by
        have hplace : sum + (w.toNat + r : Nat) = sum + w + r := by omega
        rw [runningSums, hnext, locate_cons hsorted, hplace, if_pos (by omega)]
      simp only [hlocate]
      cases i with
      | zero => simp
      | succ i => simpa using ih hrest (by omega) (by omega) i
    rw [Int.toNat_add hw hnonneg, List.range_add, List.countP_append, List.countP_map,
      Function.comp_def, hfirst, hothers]
    cases i <;> simp

/-- Of the numbers below the total of some weights, as many are located at each member as its
weight. -/
theorem card_locate {weights : List Int} (hweights : ∀ w ∈ weights, 0 ≤ w)
    (hfits : totalWeight weights ≤ Source.greatestSigned) (i : Nat) :
    ((Finset.range (totalWeight weights).toNat).filter
      fun r : Nat => locate (runningSums 0 weights) r = i).card = (weights.getD i 0).toNat := by
  have hcount := countP_locate hweights le_rfl (by rwa [Int.zero_add]) i
  simp only [Int.zero_add] at hcount
  rw [← hcount, Finset.card, Finset.filter_val, ← Multiset.countP_eq_card_filter]
  exact Multiset.coe_countP _ _

theorem cumulativeTotal_of_fits {weights : List Int} (hweights : ∀ w ∈ weights, 0 ≤ w)
    (hfits : totalWeight weights ≤ Source.greatestSigned) :
    cumulativeTotal (runningSums 0 weights) = totalWeight weights := by
  rw [cumulativeTotal_runningSums, wrapSigned_of_mem (totalWeight_nonneg hweights) hfits]

/-- A number below the total of some weights is located at a member with a weight. -/
theorem exists_locate {weights : List Int} (hweights : ∀ w ∈ weights, 0 ≤ w)
    (hfits : totalWeight weights ≤ Source.greatestSigned) {r : Int} (hlow : 0 ≤ r)
    (hhigh : r < totalWeight weights) :
    ∃ w, weights[locate (runningSums 0 weights) r]? = some w ∧ 0 < w := by
  refine locate_runningSums hweights rfl hlow ?_
  rwa [← cumulativeTotal, cumulativeTotal_of_fits hweights hfits]

/-- A weighted draw takes a number below the total, and the member that it is located at. -/
theorem cumulativeIndex_of_fits {weights : List Int} (hweights : ∀ w ∈ weights, 0 ≤ w)
    (hpos : 0 < totalWeight weights) (hfits : totalWeight weights ≤ Source.greatestSigned)
    (s : Source) : ∃ (r : Nat) (t : Source),
      s.uniformInt 0 (totalWeight weights - 1) = .ok (r, t) ∧ r < totalWeight weights ∧
        cumulativeIndex (runningSums 0 weights) s =
          .ok (locate (runningSums 0 weights) r, t) := by
  have hwords : Source.greatestSigned < Source.greatestUnsigned := by decide
  cases hdraw : s.uniformInt 0 (totalWeight weights - 1) with
  | error fault =>
    obtain ⟨hlt, -⟩ | hbounds := Source.uniformInt_eq_error hdraw
    · omega
    · have hvast := (Source.boundsFault?_index hbounds).1
      omega
  | ok drawn =>
    obtain ⟨hlow, hhigh⟩ := Source.uniformInt_mem hdraw
    refine ⟨drawn.1.toNat, drawn.2, ?_, by omega, ?_⟩
    · rw [Int.toNat_of_nonneg hlow]
    · simp only [cumulativeIndex, cumulativeTotal_of_fits hweights hfits, hdraw,
        if_neg (Int.not_le.mpr hpos), Int.toNat_of_nonneg hlow]

namespace WeightedPool

/-! ## Weighted pools -/

/-- The draw of the copy with a number. -/
def drawAt (number : Nat) (p : WeightedPool) : Option (Ticket × WeightedPool) :=
  some (p.stocked.take (locate (runningSums 0 p.stocked.remaining) number))

/-- The order in which numbers of copies, chosen one after the other, deal the members. -/
def order (p : WeightedPool) (numbers : List Nat) : Option (List Nat) := dealt drawAt p numbers

/-- A draw with a source is the draw of the copy with the number that the source gives. -/
theorem Sound.exists_draw {p : WeightedPool} (hp : p.Sound) (htotal : totalWeight p.weights ≠ 0)
    (s : Source) : ∃ (number : Nat) (t : Source),
      s.uniformInt 0 (p.stocked.total - 1) = .ok (number, t) ∧ number < p.stocked.total ∧
        ∃ ticket, p.drawAt number = some (ticket, (p.draw s).pool) ∧
          (p.draw s).outcome = .ok ticket := by
  have hstock := hp.stocked
  obtain ⟨number, t, hnumber, hlt, hindex⟩ := cumulativeIndex_of_fits hstock.counts_nonneg
    (hp.totalWeight_stocked htotal) hstock.counts_fit s
  have hdrawn : weightedIndex p.stocked.remaining s =
      .ok (locate (runningSums 0 p.stocked.remaining) number, t) := by
    rw [weightedIndex, cumulativeWeights_of_mem
      (mem_of_totalWeight_le hstock.counts_nonneg hstock.counts_fit)]
    exact hindex
  rw [← hstock.total_eq] at hnumber hlt
  refine ⟨number, t, hnumber, hlt,
    (p.stocked.take (locate (runningSums 0 p.stocked.remaining) number)).1, ?_, ?_⟩
  · simp only [drawAt, draw, hdrawn]
  · simp only [draw, hdrawn]

theorem isSome_refill?_draw {p : WeightedPool} {s : Source} :
    (p.draw s).refill?.isSome = true ↔ p.total = 0 := by
  have hrefill : (p.draw s).refill? = if p.total = 0 then some (.copies p.capacity) else none := by
    unfold draw
    simp only
    split <;> rfl
  rw [hrefill]
  split <;> simp_all

/-- A number below the count of the copies that a pool holds, below its total. -/
theorem Sound.lt_total {p : WeightedPool} (hp : p.Sound) {number : Nat}
    (h : number < p.contents.card) : number < totalWeight p.remaining := by
  rw [← card_copiesOf hp.counts_nonneg]
  exact Int.ofNat_lt.mpr h

/-- Where a pool holds copies, a draw takes one of them. -/
theorem Sound.drawAt_eq {p : WeightedPool} (hp : p.Sound) {number : Nat}
    (h : number < p.contents.card) :
    p.drawAt number = some (p.take (locate (runningSums 0 p.remaining) number)) := by
  have hlt := hp.lt_total h
  have hstocked : p.stocked = p := if_neg (by rw [hp.total_eq]; omega)
  rw [drawAt, hstocked]

/-- Choices of numbers take the copies of a weighted pool, each by one number. -/
theorem evenly : Evenly drawAt Sound contents where
  draws {p r} hp hr := by
    obtain ⟨c, hi, hc⟩ := exists_locate hp.counts_nonneg hp.counts_fit (Int.natCast_nonneg r)
      (hp.lt_total hr)
    exact ⟨_, _, hp.drawAt_eq hr, hp.take hi hc, mem_copiesOf hi hc, contents_take p _⟩
  counts {p} hp i := by
    have hcard : p.contents.card = (totalWeight p.remaining).toNat := by
      rw [← card_copiesOf hp.counts_nonneg]
      rfl
    have hlocate := countP_locate hp.counts_nonneg le_rfl (by simpa using hp.counts_fit) i
    rw [contents, count_copiesOf, ← hlocate, ← hcard]
    refine List.countP_congr fun r hr => ?_
    rw [hp.drawAt_eq (List.mem_range.mp hr)]
    simp [take]

/-- A weighted pool over some weights, in any state. -/
structure Over (weights : List Int) (p : WeightedPool) : Prop where
  sound : p.Sound
  weights_eq : p.weights = weights
  counts : p.Counts weights.length

theorem over_full {weights : List Int} (hweights : ∀ w ∈ weights, 0 ≤ w)
    (hfits : totalWeight weights ≤ Source.greatestSigned) : (full weights).Over weights :=
  have hmem := mem_of_totalWeight_le hweights hfits
  ⟨sound_full hweights hfits, rfl, rfl, hmem, rfl, hmem⟩

/-- A draw takes from what a weighted pool holds, or from all copies if it starts with a refill. -/
theorem contents_stocked (p : WeightedPool) (s : Source) : p.stocked.contents =
    if (p.draw s).refill?.isSome then copiesOf p.weights else p.contents := by
  rw [stocked]
  by_cases h : p.total = 0
  · rw [if_pos h, if_pos (isSome_refill?_draw.mpr h)]
    rfl
  · rw [if_neg h, if_neg (isSome_refill?_draw.not.mpr h)]

theorem bagged (weights : List Int) :
    Bagged draw refill (Over weights) contents (copiesOf weights) where
  refill hp :=
    ⟨⟨hp.sound.refill, hp.weights_eq, hp.counts.refill⟩, congrArg copiesOf hp.weights_eq⟩
  draw {p} hp s := by
    have htakes := takesFrom_draw hp.sound s
    rw [contents_stocked p s, hp.weights_eq] at htakes
    exact ⟨⟨sound_draw hp.sound s, (weights_draw p s).trans hp.weights_eq, (hp.counts.draw s).1⟩,
      htakes⟩

/-- The counts of a pool, where what has been drawn and what is left make up its weights. -/
theorem Over.remaining_eq {weights : List Int} {p : WeightedPool} (hp : p.Over weights)
    {drawn : List Nat} (hbag : (drawn : Multiset Nat) + p.contents = copiesOf weights) :
    p.remaining = weights.mapIdx fun i (w : Int) => w - (drawn.count i : Int) := by
  have hlength : p.remaining.length = weights.length := hp.counts.remaining_length
  refine List.ext_getElem (by simp [hlength]) fun i hi _ => ?_
  have hcount := congrArg (Multiset.count i) hbag
  rw [Multiset.count_add, Multiset.coe_count, contents, count_copiesOf, count_copiesOf,
    List.getD_eq_getElem _ _ hi, List.getD_eq_getElem _ _ (hlength ▸ hi)] at hcount
  have hleft := hp.sound.counts_nonneg _ (List.getElem_mem hi)
  have hmem : weights[i] ∈ p.weights := by
    rw [hp.weights_eq]
    exact List.getElem_mem _
  have hweight := hp.sound.weights_nonneg _ hmem
  rw [List.getElem_mapIdx]
  omega

/-- The exchanges of equal copies, by the weights. -/
theorem exchanges_copiesOf (weights : List Int) :
    exchanges (copiesOf weights) =
      ∏ i ∈ Finset.range weights.length, (weights.getD i 0).toNat.factorial := by
  have hmembers : (copiesOf weights).toFinset ⊆ Finset.range weights.length := by
    intro i hi
    rw [Multiset.mem_toFinset, ← Multiset.count_pos, count_copiesOf] at hi
    rw [Finset.mem_range]
    by_contra hlength
    rw [List.getD_eq_default _ _ (by omega)] at hi
    exact absurd hi (by decide)
  rw [exchanges_eq hmembers]
  exact Finset.prod_congr rfl fun i _ => by rw [count_copiesOf]

/-- From a full pool, an arrangement of the copies is dealt by as many sequences of choices as there
are exchanges of equal ones. -/
theorem ncard_order {weights : List Int} (hweights : ∀ w ∈ weights, 0 ≤ w)
    (hfits : totalWeight weights ≤ Source.greatestSigned) {arrangement : List Nat}
    (harrangement : ∀ i, arrangement.count i = (weights.getD i 0).toNat) :
    {numbers | numbers ∈ choices (totalWeight weights).toNat ∧
      (full weights).order numbers = some arrangement}.ncard =
        ∏ i ∈ Finset.range weights.length, (weights.getD i 0).toNat.factorial := by
  have hmembers : (arrangement : Multiset Nat) = (full weights).contents := by
    ext i
    rw [Multiset.coe_count, harrangement]
    exact (count_copiesOf weights i).symm
  have hlength : arrangement.length = (totalWeight weights).toNat := by
    rw [← card_copiesOf hweights, Int.toNat_natCast]
    exact congrArg Multiset.card hmembers
  rw [← hlength, ← exchanges_copiesOf]
  exact evenly.ncard_dealt (sound_full hweights hfits) hmembers

/-- Weighted draws are exact. Of the numbers below the total of some weights, among which a draw
takes one, as many stand for each member as its weight. And a weighted pool is an exact bag. Under
any refills and draws, with any sources, the count of each member is its weight less the number of
times that it has been drawn since the last refill, which may have been one at the start of a draw.
Such a refill takes place exactly in a draw from an empty pool; every draw succeeds, and tells of
itself that it was the last one exactly if it has emptied the pool. In a round from the full pool,
each arrangement of the copies comes from as many sequences of numbers as the factorials of the
weights multiply to. -/
theorem bag_exact {weights : List Int} (hweights : ∀ w ∈ weights, 0 ≤ w)
    (hpos : 0 < totalWeight weights) (hfits : totalWeight weights ≤ Source.greatestSigned) :
    (cumulativeWeights weights = .ok (runningSums 0 weights) ∧
      (∀ i, ((Finset.range (totalWeight weights).toNat).filter
        fun r : Nat => locate (runningSums 0 weights) r = i).card = (weights.getD i 0).toNat) ∧
      (∀ r : Nat, r < totalWeight weights → locate (runningSums 0 weights) r < weights.length) ∧
      ∀ s : Source, ∃ (r : Nat) (t : Source),
        s.uniformInt 0 (totalWeight weights - 1) = .ok (r, t) ∧ r < totalWeight weights ∧
        cumulativeIndex (runningSums 0 weights) s =
          .ok (locate (runningSums 0 weights) r, t)) ∧
    ofWeights weights = .ok (full weights) ∧
    (∀ p drawn, History draw refill (full weights) p drawn →
      p.remaining = weights.mapIdx (fun i (w : Int) => w - (drawn.count i : Int)) ∧
      p.total = totalWeight p.remaining ∧
      ∀ s : Source,
        ((p.draw s).refill?.isSome = true ↔ p.total = 0) ∧
        ∃ (number : Nat) (t : Source),
          s.uniformInt 0 (p.stocked.total - 1) = .ok (number, t) ∧ number < p.stocked.total ∧
          ∃ ticket, p.drawAt number = some (ticket, (p.draw s).pool) ∧
            (p.draw s).outcome = .ok ticket ∧
            (ticket.last = true ↔ (p.draw s).pool.total = 0)) ∧
    ∀ arrangement : List Nat, (∀ i, arrangement.count i = (weights.getD i 0).toNat) →
      {numbers | numbers ∈ choices (totalWeight weights).toNat ∧
        (full weights).order numbers = some arrangement}.ncard =
          ∏ i ∈ Finset.range weights.length, (weights.getD i 0).toNat.factorial := by
  have hmem := mem_of_totalWeight_le hweights hfits
  refine ⟨⟨cumulativeWeights_of_mem hmem, card_locate hweights hfits, fun r hr => ?_,
      cumulativeIndex_of_fits hweights hpos hfits⟩,
    ofWeights_of_mem hpos.ne' hmem, fun p drawn hp => ?_,
    fun _ harrangement => ncard_order hweights hfits harrangement⟩
  · obtain ⟨w, hw, -⟩ := exists_locate hweights hfits (Int.natCast_nonneg r) hr
    exact (List.getElem?_eq_some_iff.mp hw).1
  · obtain ⟨hover, hbag⟩ :=
      (bagged weights).drawn_add_contents (over_full hweights hfits) rfl hp
    refine ⟨hover.remaining_eq hbag, hover.sound.total_eq, fun s => ⟨isSome_refill?_draw, ?_⟩⟩
    obtain ⟨number, t, hnumber, hlt, ticket, htaken, hticket⟩ :=
      hover.sound.exists_draw (hover.weights_eq ▸ hpos.ne') s
    exact ⟨number, t, hnumber, hlt, ticket, htaken, hticket, last_draw hticket⟩

/-- A bag of two copies of one member, none of another and one of a third. -/
theorem bag_exact_three :
    ((Finset.range 3).filter fun r : Nat => locate (runningSums 0 [2, 0, 1]) r = 0).card = 2 ∧
    (∀ s : Source, ∃ ticket, ((full [2, 0, 1]).draw s).outcome = .ok ticket ∧
      ((full [2, 0, 1]).draw s).pool.remaining =
        [2, 0, 1].mapIdx fun i (w : Int) => w - ([ticket.member].count i : Int)) ∧
    {numbers | numbers ∈ choices 3 ∧
      (full [2, 0, 1]).order numbers = some [0, 2, 0]}.ncard = 2 := by
  obtain ⟨⟨-, hlocate, -, -⟩, -, hhistory, hround⟩ :=
    @bag_exact [2, 0, 1] (by decide) (by decide) (by decide)
  refine ⟨hlocate 0, fun s => ?_, ?_⟩
  · obtain ⟨-, -, hdraw⟩ := hhistory (full [2, 0, 1]) [] .start
    obtain ⟨-, _, _, -, -, ticket, -, hticket, -⟩ := hdraw s
    obtain ⟨hafter, -⟩ := hhistory _ _ (.draw .start s)
    have hnone : ((full [2, 0, 1]).draw s).refill?.isSome = false := by
      rw [Bool.eq_false_iff, Ne, isSome_refill?_draw]
      decide
    refine ⟨ticket, hticket, ?_⟩
    rw [hafter]
    simp [Draw.drawn, hticket, hnone, Except.toOption]
  · refine hround [0, 2, 0] fun i => ?_
    obtain _ | _ | _ | i := i
    · rfl
    · rfl
    · rfl
    · simp

end WeightedPool

end Stimulus.Sampling
