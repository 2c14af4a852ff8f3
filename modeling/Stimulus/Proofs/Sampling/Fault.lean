import Stimulus.Proofs.Sampling.Stock

/-!
# Draws that cannot fault

A draw from a pool or a table takes one of its members, whatever its weights add up to, and it fails
for want of an eligible member or not at all. Only a set with more members than there are words can
make the draw of an index fault.
-/
namespace Stimulus.Random.Source

theorem uniformIndex_lt {count : Int} {i : Nat} {s t : Source}
    (h : s.uniformIndex count = .ok (i, t)) : (i : Int) < count := by
  obtain ⟨v, hv, rfl⟩ := uniformIndex_eq_ok h
  obtain ⟨hlow, hhigh⟩ := uniformInt_mem hv
  omega

/-- The bounds of a draw of an index fit the words, unless there are more members than words. -/
theorem boundsFault?_index {count : Int} {fault : Fault}
    (h : boundsFault? 0 (count - 1) = some fault) :
    greatestUnsigned < count ∧ fault = .highOutOfUnsignedBounds := by
  have hleast : leastSigned ≤ 0 := by decide
  unfold boundsFault? at h
  split at h
  · split at h
    · cases h
      exact ⟨by omega, rfl⟩
    · cases h
  · rename_i hfits
    simp only [Bool.and_eq_true, decide_eq_true_eq, le_refl, and_true, not_lt] at hfits
    rw [if_neg (by omega), if_neg (by omega)] at h
    cases h

theorem uniformIndex_fault {count : Int} {s : Source} {fault : Fault} (hpos : 0 < count)
    (h : s.uniformIndex count = .error fault) :
    greatestUnsigned < count ∧ fault = .highOutOfUnsignedBounds := by
  rw [uniformIndex, if_neg (by omega)] at h
  cases hdraw : s.uniformInt 0 (count - 1) with
  | ok drawn => simp [hdraw, Except.map] at h
  | error other =>
    rw [hdraw] at h
    cases h
    obtain ⟨hlt, -⟩ | hbounds := uniformInt_eq_error hdraw
    · omega
    · exact boundsFault?_index hbounds

end Stimulus.Random.Source

namespace Stimulus.Sampling

open Stimulus.Random

/-! ## Tables -/

theorem length_runningSums (sum : Int) (weights : List Int) :
    (runningSums sum weights).length = weights.length := by
  induction weights generalizing sum with
  | nil => rfl
  | cons w rest ih => simp only [runningSums, List.length_cons, ih]

theorem wrapSigned_le (x : Int) : wrapSigned x ≤ Source.greatestSigned := by
  have hgreatest : Source.greatestSigned = 9223372036854775807 := rfl
  have hlt := Int.bmod_lt (x := x) (m := 1 <<< 64) (by decide)
  rw [wrapSigned]
  omega

theorem runningSums_le (sum : Int) (weights : List Int) :
    ∀ x ∈ runningSums sum weights, x ≤ Source.greatestSigned := by
  induction weights generalizing sum with
  | nil => simp [runningSums]
  | cons w rest ih =>
    rw [runningSums, List.forall_mem_cons]
    exact ⟨wrapSigned_le _, ih _⟩

/-- The total of a table is one of its sums. -/
theorem cumulativeTotal_mem {sums : List Int} (hpos : 0 < cumulativeTotal sums) :
    cumulativeTotal sums ∈ sums := by
  rw [cumulativeTotal] at hpos ⊢
  cases hlast : sums.getLast? with
  | none =>
    rw [hlast] at hpos
    exact absurd hpos (by decide)
  | some total => exact List.mem_of_getLast? hlast

theorem cumulativeIndex_lt {sums : List Int} {i : Nat} {s t : Source}
    (h : cumulativeIndex sums s = .ok (i, t)) : i < sums.length := by
  obtain ⟨r, hr, rfl⟩ := cumulativeIndex_eq_ok h
  obtain ⟨hlow, hhigh⟩ := Source.uniformInt_mem hr
  rw [cumulativeTotal] at hhigh
  exact locate_lt hlow (by omega)

theorem all_isSigned {weights : List Int}
    (h : ∀ w ∈ weights, 0 ≤ w ∧ w ≤ Source.greatestSigned) : weights.all isSigned = true := by
  have hleast : Source.leastSigned ≤ 0 := by decide
  rw [List.all_eq_true]
  intro w hw
  obtain ⟨hlow, hhigh⟩ := h w hw
  simp only [isSigned, Bool.and_eq_true, decide_eq_true_eq]
  omega

/-- Weights that fit their words have running sums. -/
theorem cumulativeWeights_of_mem {weights : List Int}
    (h : ∀ w ∈ weights, 0 ≤ w ∧ w ≤ Source.greatestSigned) :
    cumulativeWeights weights = .ok (runningSums 0 weights) := by
  have hnegative : weights.any (· < 0) = false := by
    rw [List.any_eq_false]
    intro w hw
    have hlow := (h w hw).1
    simp only [decide_eq_true_eq]
    omega
  simp [cumulativeWeights, all_isSigned h, hnegative]

/-- A draw from running sums fails exactly if they leave no member eligible. -/
theorem cumulativeIndex_eq_error_iff {weights : List Int} {s : Source} {failure : Failure} :
    cumulativeIndex (runningSums 0 weights) s = .error failure ↔
      failure = .cause .noEligibleMember ∧ cumulativeTotal (runningSums 0 weights) ≤ 0 := by
  unfold cumulativeIndex
  simp only
  split
  · rename_i hle
    simp [hle, eq_comm]
  · rename_i hpos
    have htotal := runningSums_le 0 weights _ (cumulativeTotal_mem (by omega))
    have hwords : Source.greatestSigned < Source.greatestUnsigned := by decide
    split
    · rename_i fault hfault
      obtain ⟨hlt, -⟩ | hbounds := Source.uniformInt_eq_error hfault
      · omega
      · have hvast := (Source.boundsFault?_index hbounds).1
        omega
    · simp [hpos]

/-- A draw from running sums fails only if they leave no member eligible. -/
theorem cumulativeIndex_cause {weights : List Int} {s : Source} {failure : Failure}
    (h : cumulativeIndex (runningSums 0 weights) s = .error failure) :
    failure = .cause .noEligibleMember :=
  (cumulativeIndex_eq_error_iff.mp h).1

/-! ## Weighted pools -/

namespace WeightedPool

/-- A weighted pool over a number of members, with weights and counts that fit their words. -/
structure Counts (count : Nat) (p : WeightedPool) : Prop where
  weights_length : p.weights.length = count
  weights_mem : ∀ w ∈ p.weights, 0 ≤ w ∧ w ≤ Source.greatestSigned
  remaining_length : p.remaining.length = count
  remaining_mem : ∀ c ∈ p.remaining, 0 ≤ c ∧ c ≤ Source.greatestSigned

namespace Counts

variable {p : WeightedPool} {count : Nat}

theorem refill (hp : p.Counts count) : p.refill.Counts count :=
  ⟨hp.weights_length, hp.weights_mem, hp.weights_length, hp.weights_mem⟩

theorem stocked (hp : p.Counts count) : p.stocked.Counts count := by
  unfold WeightedPool.stocked
  split
  · exact hp.refill
  · exact hp

theorem take (hp : p.Counts count) {i : Nat} {c : Int} (hi : p.remaining[i]? = some c)
    (hc : 0 < c) : (p.take i).2.Counts count where
  weights_length := hp.weights_length
  weights_mem := hp.weights_mem
  remaining_length := by simp [WeightedPool.take, hp.remaining_length]
  remaining_mem := by
    intro d hd
    obtain ⟨j, hj⟩ := List.mem_iff_getElem?.mp hd
    simp only [WeightedPool.take, List.getElem?_modify] at hj
    obtain ⟨e, he, rfl⟩ := Option.map_eq_some_iff.mp hj
    obtain ⟨hlow, hhigh⟩ := hp.remaining_mem e (List.mem_of_getElem? he)
    split
    · rename_i hij
      subst hij
      rw [hi] at he
      cases he
      omega
    · exact ⟨hlow, hhigh⟩

/-- A draw keeps the counts. It takes a member, or no member is eligible. -/
theorem draw (hp : p.Counts count) (s : Source) :
    (p.draw s).pool.Counts count ∧
      (∀ ticket, (p.draw s).outcome = .ok ticket → ticket.member < count) ∧
      ∀ failure, (p.draw s).outcome = .error failure → failure = .cause .noEligibleMember := by
  have hstock := hp.stocked
  unfold WeightedPool.draw
  simp only
  split
  · rename_i failure hfailure
    refine ⟨hstock, by simp, ?_⟩
    rintro _ ⟨⟩
    rw [weightedIndex, cumulativeWeights_of_mem hstock.remaining_mem] at hfailure
    exact cumulativeIndex_cause hfailure
  · rename_i i t hdrawn
    have hnonneg : ∀ c ∈ p.stocked.remaining, 0 ≤ c := fun c hc => (hstock.remaining_mem c hc).1
    obtain ⟨c, hi, hc⟩ := weightedIndex_mem hnonneg hdrawn
    refine ⟨hstock.take hi hc, ?_, by simp⟩
    rintro _ ⟨⟩
    have hlt := (List.getElem?_eq_some_iff.mp hi).1
    rwa [hstock.remaining_length] at hlt

end Counts

end WeightedPool

/-! ## Pools -/

namespace Pool

/-- A pool over a number of members, of which there are some. -/
structure Counts (count : Nat) (p : Pool) : Prop where
  pos : 0 < count
  size : p.size = count
  remaining_mem : ∀ i ∈ p.remaining, i < count
  remaining_length : p.remaining.length ≤ count

namespace Counts

variable {p : Pool} {count : Nat}

theorem full (hpos : 0 < count) : (Pool.full count).Counts count :=
  ⟨hpos, rfl, by simp [Pool.full], by simp [Pool.full]⟩

theorem refill (hp : p.Counts count) : p.refill.Counts count := by
  rw [Pool.refill, hp.size]
  exact full hp.pos

theorem stocked (hp : p.Counts count) :
    p.stocked.Counts count ∧ 0 < p.stocked.remaining.length := by
  unfold Pool.stocked
  split
  · refine ⟨hp.refill, ?_⟩
    rw [Pool.refill, hp.size, Pool.full, List.length_range]
    exact hp.pos
  · rename_i hne
    exact ⟨hp, List.length_pos_iff.mpr (by simpa using hne)⟩

/-- A draw keeps the counts. It takes a member, unless there are more members than words. -/
theorem draw (hp : p.Counts count) (s : Source) :
    (p.draw s).pool.Counts count ∧
      (∀ ticket, (p.draw s).outcome = .ok ticket → ticket.member < count) ∧
      ∀ failure, (p.draw s).outcome = .error failure →
        Source.greatestUnsigned < count ∧ failure = .fault .highOutOfUnsignedBounds := by
  obtain ⟨hstock, hpos⟩ := hp.stocked
  unfold Pool.draw
  simp only
  split
  · rename_i fault hfault
    refine ⟨hstock, by simp, ?_⟩
    rintro _ ⟨⟩
    obtain ⟨hvast, rfl⟩ := Source.uniformIndex_fault (by omega) hfault
    have hlength := hstock.remaining_length
    exact ⟨by omega, rfl⟩
  · rename_i place t hplace
    have hlt := Source.uniformIndex_lt hplace
    split
    · rename_i ticket taken htake
      obtain ⟨member, hmember, hpair⟩ := Option.map_eq_some_iff.mp htake
      cases hpair
      have hperm := cons_swapRemove_perm hmember
      refine ⟨⟨hstock.pos, hstock.size, ?_, ?_⟩, ?_, by simp⟩
      · intro i hi
        exact hstock.remaining_mem i (hperm.subset (List.mem_cons_of_mem _ hi))
      · have hlength := hstock.remaining_length
        simp only [length_swapRemove]
        omega
      · rintro _ ⟨⟩
        exact hstock.remaining_mem _ (List.mem_of_getElem? hmember)
    · rename_i htake
      rw [Pool.take?, Option.map_eq_none_iff, List.getElem?_eq_none_iff] at htake
      omega

end Counts

end Pool

end Stimulus.Sampling
