import Stimulus.Proofs.Cell.Sound
import Stimulus.Proofs.Sampling.Fault

/-!
# Exact tables

The tables of the weighted samplers are computed with signed numbers of 64 bits. They are exact as
long as the true sum of the weights is such a number, whatever the number of members. Beyond that
the running sums wrap around, and so does the total.
-/
namespace Stimulus.Sampling

open Stimulus.Random

/-! ## True sums -/

/-- The true sums of the initial parts of a list of weights, the empty part left out. -/
def prefixSums (weights : List Int) : List Int :=
  (List.range weights.length).map fun i => totalWeight (weights.take (i + 1))

theorem le_totalWeight {weights : List Int} (hweights : ∀ w ∈ weights, 0 ≤ w) :
    ∀ w ∈ weights, w ≤ totalWeight weights := by
  induction weights with
  | nil => simp
  | cons w rest ih =>
    rw [List.forall_mem_cons] at hweights ⊢
    have hrest := totalWeight_nonneg hweights.2
    simp only [totalWeight]
    refine ⟨by omega, fun v hv => ?_⟩
    have hle := ih hweights.2 v hv
    omega

theorem totalWeight_eq_zero_iff {weights : List Int} (hweights : ∀ w ∈ weights, 0 ≤ w) :
    totalWeight weights = 0 ↔ ∀ w ∈ weights, w = 0 := by
  constructor
  · intro htotal w hw
    have hnonneg := hweights w hw
    have hle := le_totalWeight hweights w hw
    omega
  · intro hzero
    induction weights with
    | nil => rfl
    | cons w rest ih =>
      rw [List.forall_mem_cons] at hweights hzero
      rw [totalWeight, ih hweights.2 hzero.2, hzero.1, Int.add_zero]

theorem totalWeight_take_le {weights : List Int} (hweights : ∀ w ∈ weights, 0 ≤ w) {i j : Nat}
    (hle : i ≤ j) : totalWeight (weights.take i) ≤ totalWeight (weights.take j) := by
  induction weights generalizing i j with
  | nil => simp
  | cons w rest ih =>
    rw [List.forall_mem_cons] at hweights
    cases i with
    | zero =>
      rw [List.take_zero]
      refine totalWeight_nonneg fun v hv => ?_
      exact List.forall_mem_cons.mpr hweights v (List.mem_of_mem_take hv)
    | succ i =>
      obtain ⟨j, rfl⟩ := Nat.exists_eq_succ_of_ne_zero (by omega : j ≠ 0)
      simp only [List.take_succ_cons, totalWeight]
      have hrest := ih hweights.2 (Nat.le_of_succ_le_succ hle)
      omega

theorem pairwise_prefixSums {weights : List Int} (hweights : ∀ w ∈ weights, 0 ≤ w) :
    (prefixSums weights).Pairwise (· ≤ ·) := by
  rw [prefixSums, List.pairwise_map]
  exact List.pairwise_lt_range.imp fun hlt => totalWeight_take_le hweights (by omega)

/-! ## Running sums -/

/-- Behind a sum that fits its word, and as long as the total does, running sums do not wrap. -/
theorem runningSums_eq {weights : List Int} {sum : Int} (hweights : ∀ w ∈ weights, 0 ≤ w)
    (hsum : 0 ≤ sum) (hfits : sum + totalWeight weights ≤ Source.greatestSigned) :
    runningSums sum weights = (prefixSums weights).map (sum + ·) := by
  induction weights generalizing sum with
  | nil => rfl
  | cons w rest ih =>
    rw [List.forall_mem_cons] at hweights
    have hrest := totalWeight_nonneg hweights.2
    rw [totalWeight] at hfits
    have hnext : wrapSigned (sum + w) = sum + w := wrapSigned_of_mem (by omega) (by omega)
    rw [runningSums, hnext, ih hweights.2 (by omega) (by omega)]
    simp [prefixSums, List.range_succ_eq_map, totalWeight, Int.add_assoc]

theorem pairwise_runningSums {weights : List Int} {sum : Int} (hweights : ∀ w ∈ weights, 0 ≤ w)
    (hsum : 0 ≤ sum) (hfits : sum + totalWeight weights ≤ Source.greatestSigned) :
    (runningSums sum weights).Pairwise (· ≤ ·) := by
  rw [runningSums_eq hweights hsum hfits, List.pairwise_map]
  exact (pairwise_prefixSums hweights).imp fun hle => Int.add_le_add_left hle sum

/-- The last running sum is the total of the weights, wrapped once. -/
theorem getLast?_runningSums (sum : Int) (weights : List Int) :
    (runningSums sum weights).getLast?.getD (wrapSigned sum) =
      wrapSigned (sum + totalWeight weights) := by
  induction weights generalizing sum with
  | nil => simp [runningSums, totalWeight]
  | cons w rest ih =>
    have hrest := ih (wrapSigned (sum + w))
    rw [wrapSigned_wrapSigned] at hrest
    rw [runningSums, List.getLast?_cons, Option.getD_some, hrest, totalWeight, ← Int.add_assoc]
    exact Int.bmod_add_bmod

theorem cumulativeTotal_runningSums (weights : List Int) :
    cumulativeTotal (runningSums 0 weights) = wrapSigned (totalWeight weights) := by
  have hlast := getLast?_runningSums 0 weights
  rwa [Int.zero_add] at hlast

theorem mem_of_totalWeight_le {weights : List Int} (hweights : ∀ w ∈ weights, 0 ≤ w)
    (hfits : totalWeight weights ≤ Source.greatestSigned) :
    ∀ w ∈ weights, 0 ≤ w ∧ w ≤ Source.greatestSigned :=
  fun w hw => ⟨hweights w hw, (le_totalWeight hweights w hw).trans hfits⟩

/-! ## Tables -/

namespace WeightTable

/-- A table that has the true sums of its weights, and draws from them unless all are zero. -/
structure Exact (t : WeightTable) (weights : List Int) : Prop where
  weights_eq : t.weights = weights
  total : t.total = totalWeight weights
  sums : t.sums = prefixSums weights
  sorted : t.sums.Pairwise (· ≤ ·)
  draw_eq_error_iff : ∀ s failure, t.draw s = .error failure ↔
    failure = .cause .noEligibleMember ∧ ∀ w ∈ weights, w = 0

theorem exact_of_fits {weights : List Int} (hweights : ∀ w ∈ weights, 0 ≤ w)
    (hfits : totalWeight weights ≤ Source.greatestSigned) :
    Exact ⟨weights, runningSums 0 weights⟩ weights := by
  have hnonneg := totalWeight_nonneg hweights
  have htotal : cumulativeTotal (runningSums 0 weights) = totalWeight weights := by
    rw [cumulativeTotal_runningSums, wrapSigned_of_mem hnonneg hfits]
  have hsums : runningSums 0 weights = prefixSums weights := by
    rw [runningSums_eq hweights le_rfl (by omega)]
    simp
  refine ⟨rfl, htotal, hsums, pairwise_runningSums hweights le_rfl (by omega), fun s failure => ?_⟩
  · rw [draw, cumulativeIndex_eq_error_iff, htotal, ← totalWeight_eq_zero_iff hweights]
    exact and_congr_right fun _ => ⟨fun hle => by omega, fun hzero => by omega⟩

end WeightTable

/-! ## Weighted pools -/

namespace WeightedPool

/-- The pools that draws and refills lead to. -/
inductive Reaches (p : WeightedPool) : WeightedPool → Prop
  | refl : Reaches p p
  | refill {q : WeightedPool} (h : Reaches p q) : Reaches p q.refill
  | draw {q : WeightedPool} (s : Source) (h : Reaches p q) : Reaches p (q.draw s).pool

/-- A pool that counts its copies truly and draws one unless all weights are zero. -/
structure Exact (p : WeightedPool) (weights : List Int) : Prop where
  weights_eq : p.weights = weights
  capacity : p.capacity = totalWeight weights
  total : p.total = totalWeight p.remaining
  draw_eq_error_iff : ∀ s failure, (p.draw s).outcome = .error failure ↔
    failure = .cause .noEligibleMember ∧ ∀ w ∈ weights, w = 0

theorem Reaches.sound {p q : WeightedPool} (h : p.Reaches q) (hp : p.Sound) :
    q.Sound ∧ q.weights = p.weights := by
  induction h with
  | refl => exact ⟨hp, rfl⟩
  | refill _ ih => exact ⟨ih.1.refill, ih.2⟩
  | draw s _ ih => exact ⟨sound_draw ih.1 s, (weights_draw _ s).trans ih.2⟩

theorem Sound.totalWeight_stocked {p : WeightedPool} (hp : p.Sound)
    (htotal : totalWeight p.weights ≠ 0) : 0 < totalWeight p.stocked.remaining := by
  have hnonneg := totalWeight_nonneg hp.stocked.counts_nonneg
  have hne : totalWeight p.stocked.remaining ≠ 0 := by
    unfold WeightedPool.stocked
    split
    · exact htotal
    · rename_i hleft
      rwa [hp.total_eq] at hleft
  omega

/-- A pool with a copy in its weights never fails to draw one. -/
theorem Sound.draw_ne_error {p : WeightedPool} (hp : p.Sound) (htotal : totalWeight p.weights ≠ 0)
    (s : Source) (failure : Failure) : (p.draw s).outcome ≠ .error failure := by
  have hstock := hp.stocked
  have hpos := hp.totalWeight_stocked htotal
  unfold WeightedPool.draw
  simp only
  split
  · rename_i other hother
    rw [weightedIndex, cumulativeWeights_of_mem
      (mem_of_totalWeight_le hstock.counts_nonneg hstock.counts_fit)] at hother
    have hle := (cumulativeIndex_eq_error_iff.mp hother).2
    rw [cumulativeTotal_runningSums, wrapSigned_of_mem hpos.le hstock.counts_fit] at hle
    omega
  · simp

theorem Sound.exact {p : WeightedPool} (hp : p.Sound) (htotal : totalWeight p.weights ≠ 0) :
    p.Exact p.weights where
  weights_eq := rfl
  capacity := wrapSigned_of_mem (totalWeight_nonneg hp.weights_nonneg) hp.weights_fit
  total := hp.total_eq
  draw_eq_error_iff s failure := by
    refine ⟨fun h => absurd h (hp.draw_ne_error htotal s failure), fun h => ?_⟩
    exact absurd ((totalWeight_eq_zero_iff hp.weights_nonneg).mpr h.2) htotal

end WeightedPool

end Stimulus.Sampling

namespace Stimulus.Expr

open Stimulus.Random Stimulus.Sampling

theorem weights_nonneg {members : List (Int × Expr)} (h : weightedCause? members = none) :
    weights members ≠ [] ∧ ∀ w ∈ weights members, 0 ≤ w := by
  obtain ⟨hne, hnonneg⟩ := weightedCause?_eq_none_iff.mp h
  exact ⟨by simpa [weights] using hne, List.forall_mem_map.mpr hnonneg⟩

/-- The weights of a sampler that the static checks let pass have an exact table, exactly if their
true sum is a signed number of 64 bits; and they have a pool that is exact, and stays so with every
draw and refill, exactly if it is. -/
theorem exact_iff_totalWeight_le (members : List (Int × Expr)) :
    ((Expr.weightedSample members).nodeCause? = none →
      ((∃ t, WeightTable.ofWeights (weights members) = .ok t ∧ t.Exact (weights members)) ↔
        totalWeight (weights members) ≤ Source.greatestSigned)) ∧
    ((Expr.weightedPool members).nodeCause? = none →
      ((∃ p, WeightedPool.ofWeights (weights members) = .ok p ∧ p.remaining = weights members ∧
          ∀ q, p.Reaches q → q.Exact (weights members)) ↔
        totalWeight (weights members) ≤ Source.greatestSigned)) := by
  constructor
  · intro hcause
    obtain ⟨hne, hweights⟩ := weights_nonneg hcause
    constructor
    · rintro ⟨t, ht, hexact⟩
      obtain ⟨-, -, rfl⟩ := WeightTable.ofWeights_eq_ok ht
      rw [← hexact.total, WeightTable.total, cumulativeTotal_runningSums]
      exact wrapSigned_le _
    · intro hfits
      exact ⟨_, WeightTable.ofWeights_of_mem hne (mem_of_totalWeight_le hweights hfits),
        WeightTable.exact_of_fits hweights hfits⟩
  · intro hcause
    rw [nodeCause?, Option.or_eq_none_iff] at hcause
    obtain ⟨-, hweights⟩ := weights_nonneg hcause.1
    have htotal : totalWeight (weights members) ≠ 0 := by simpa using hcause.2
    constructor
    · rintro ⟨p, -, -, hexact⟩
      rw [← (hexact p .refl).capacity]
      exact wrapSigned_le _
    · intro hfits
      have hpool := WeightedPool.ofWeights_of_mem htotal (mem_of_totalWeight_le hweights hfits)
      refine ⟨_, hpool, rfl, fun q hq => ?_⟩
      obtain ⟨hsound, hq'⟩ := hq.sound (WeightedPool.sound_full hweights hfits)
      have hexact := hsound.exact (by rwa [hq'])
      rwa [hq'] at hexact

/-- Two members of which one cannot be drawn. -/
theorem exact_iff_totalWeight_le_two :
    let members : List (Int × Expr) := [(3, .literal 1), (0, .literal 2)]
    (Expr.weightedSample members).nodeCause? = none ∧
      (Expr.weightedPool members).nodeCause? = none ∧
      ((∃ t, WeightTable.ofWeights (weights members) = .ok t ∧ t.Exact (weights members)) ↔
        totalWeight (weights members) ≤ Source.greatestSigned) ∧
      ((∃ p, WeightedPool.ofWeights (weights members) = .ok p ∧ p.remaining = weights members ∧
          ∀ q, p.Reaches q → q.Exact (weights members)) ↔
        totalWeight (weights members) ≤ Source.greatestSigned) :=
  ⟨rfl, rfl, (exact_iff_totalWeight_le _).1 rfl, (exact_iff_totalWeight_le _).2 rfl⟩

/-- Two weights of `2 ^ 62` pass the checks, but the total of their table is negative: no draw from
it succeeds, although neither weight is zero. A weight of `2 ^ 63` passes them, too, and has no
table at all. -/
theorem exact_wraps :
    (Expr.weightedSample [(1 <<< 62, .literal 1), (1 <<< 62, .literal 2)]).nodeCause? = none ∧
      (∃ t, WeightTable.ofWeights [1 <<< 62, 1 <<< 62] = .ok t ∧ t.total = -(1 <<< 63) ∧
        ¬ t.Exact [1 <<< 62, 1 <<< 62] ∧ ∀ s, t.draw s = .error (.cause .noEligibleMember)) ∧
      (Expr.weightedSample [(1 <<< 63, .literal 1)]).nodeCause? = none ∧
      WeightTable.ofWeights [1 <<< 63] = .error .tooWide := by
  refine ⟨rfl, ⟨_, rfl, rfl, fun hexact => ?_, fun _ => rfl⟩, rfl, rfl⟩
  exact absurd hexact.total (by decide)

end Stimulus.Expr
