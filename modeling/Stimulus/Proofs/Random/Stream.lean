import Stimulus.Sampling.Pool
import Stimulus.Sampling.WeightedPool

/-!
# Draws and the stream

A draw moves a source along its stream: the seed that the source tells and its generator stay the
same. An integer that is drawn lies between its bounds.
-/
namespace Stimulus.Random

namespace Source

/-- Equal bounds are given back; between other bounds a number below their distance is drawn. -/
theorem uniformInt_eq_ok {lo hi v : Int} {s t : Source} (h : s.uniformInt lo hi = .ok (v, t)) :
    (lo = hi ∧ v = lo ∧ t = s) ∨
      (lo < hi ∧ ∃ drawn : Below (hi - lo + 1).toNat s,
        v = lo + drawn.value ∧ t = drawn.source) := by
  unfold uniformInt at h
  split at h
  · cases h
  · rename_i hle
    split at h
    · cases h
    · split at h
      · rename_i heq
        simp only [Except.ok.injEq, Prod.mk.injEq] at h
        exact .inl ⟨heq, h.1.symm, h.2.symm⟩
      · rename_i hne
        simp only [Except.ok.injEq, Prod.mk.injEq] at h
        exact .inr ⟨by omega, _, h.1.symm, h.2.symm⟩

theorem follows_uniformInt {lo hi v : Int} {s t : Source} (h : s.uniformInt lo hi = .ok (v, t)) :
    s.Follows t := by
  obtain ⟨-, -, rfl⟩ | ⟨-, drawn, -, rfl⟩ := uniformInt_eq_ok h
  · exact .refl t
  · exact drawn.follows

theorem uniformInt_mem {lo hi v : Int} {s t : Source} (h : s.uniformInt lo hi = .ok (v, t)) :
    lo ≤ v ∧ v ≤ hi := by
  obtain ⟨rfl, rfl, -⟩ | ⟨hlt, drawn, rfl, -⟩ := uniformInt_eq_ok h
  · exact ⟨Int.le_refl v, Int.le_refl v⟩
  · have hv := drawn.lt
    omega

/-- An integer is not drawn for bounds in reverse order or outside the words of 64 bits. -/
theorem uniformInt_eq_error {lo hi : Int} {s : Source} {fault : Fault}
    (h : s.uniformInt lo hi = .error fault) :
    (hi < lo ∧ fault = .emptyRange lo hi) ∨ boundsFault? lo hi = some fault := by
  unfold uniformInt at h
  split at h
  · rename_i hlt
    cases h
    exact .inl ⟨hlt, rfl⟩
  · split at h
    · rename_i hbounds
      cases h
      exact .inr hbounds
    · split at h
      · cases h
      · simp only [reduceCtorEq] at h

/-- An index draw is a draw of an integer below the count. -/
theorem uniformIndex_eq_ok {count : Int} {i : Nat} {s t : Source}
    (h : s.uniformIndex count = .ok (i, t)) :
    ∃ v, s.uniformInt 0 (count - 1) = .ok (v, t) ∧ v.toNat = i := by
  unfold uniformIndex at h
  split at h
  · cases h
  · cases hv : s.uniformInt 0 (count - 1) with
    | error fault => simp [hv, Except.map] at h
    | ok drawn =>
      simp only [hv, Except.map, Except.ok.injEq, Prod.mk.injEq] at h
      exact ⟨drawn.1, by rw [← h.2], h.1⟩

theorem uniformIndex_eq_error {count : Int} {s : Source} {fault : Fault}
    (h : s.uniformIndex count = .error fault) :
    fault = .noIndices count ∨ s.uniformInt 0 (count - 1) = .error fault := by
  unfold uniformIndex at h
  split at h
  · cases h
    exact .inl rfl
  · cases hv : s.uniformInt 0 (count - 1) with
    | ok drawn => simp [hv, Except.map] at h
    | error other =>
      rw [hv] at h
      cases h
      exact .inr rfl

theorem follows_uniformIndex {count : Int} {i : Nat} {s t : Source}
    (h : s.uniformIndex count = .ok (i, t)) : s.Follows t := by
  obtain ⟨v, hv, -⟩ := uniformIndex_eq_ok h
  exact follows_uniformInt hv

end Source

end Stimulus.Random

namespace Stimulus.Sampling

open Stimulus.Random

/-- A draw from a table takes a number below its total and looks up its place. -/
theorem cumulativeIndex_eq_ok {sums : List Int} {i : Nat} {s t : Source}
    (h : cumulativeIndex sums s = .ok (i, t)) :
    ∃ r, s.uniformInt 0 (cumulativeTotal sums - 1) = .ok (r, t) ∧ locate sums r = i := by
  unfold cumulativeIndex at h
  simp only at h
  split at h
  · cases h
  · split at h
    · cases h
    · rename_i r t' hr
      cases h
      exact ⟨r, hr, rfl⟩

theorem cumulativeIndex_eq_error {sums : List Int} {s : Source} {failure : Failure}
    (h : cumulativeIndex sums s = .error failure) :
    failure = .cause .noEligibleMember ∨
      ∃ fault, s.uniformInt 0 (cumulativeTotal sums - 1) = .error fault ∧
        failure = .fault fault := by
  unfold cumulativeIndex at h
  simp only at h
  split at h
  · cases h
    exact .inl rfl
  · split at h
    · rename_i fault hfault
      cases h
      exact .inr ⟨fault, hfault, rfl⟩
    · cases h

theorem follows_cumulativeIndex {sums : List Int} {i : Nat} {s t : Source}
    (h : cumulativeIndex sums s = .ok (i, t)) : s.Follows t := by
  obtain ⟨r, hr, -⟩ := cumulativeIndex_eq_ok h
  exact Source.follows_uniformInt hr

theorem weightedIndex_eq_ok {weights : List Int} {i : Nat} {s t : Source}
    (h : weightedIndex weights s = .ok (i, t)) :
    ∃ sums, cumulativeWeights weights = .ok sums ∧ cumulativeIndex sums s = .ok (i, t) := by
  unfold weightedIndex at h
  split at h
  · cases h
  · rename_i sums hsums
    exact ⟨sums, hsums, h⟩

theorem weightedIndex_eq_error {weights : List Int} {s : Source} {failure : Failure}
    (h : weightedIndex weights s = .error failure) :
    (∃ fault, cumulativeWeights weights = .error fault ∧ failure = .fault fault) ∨
      ∃ sums, cumulativeWeights weights = .ok sums ∧ cumulativeIndex sums s = .error failure := by
  unfold weightedIndex at h
  split at h
  · rename_i fault hfault
    cases h
    exact .inl ⟨fault, hfault, rfl⟩
  · rename_i sums hsums
    exact .inr ⟨sums, hsums, h⟩

theorem cumulativeWeights_eq_error {weights : List Int} {fault : Fault}
    (h : cumulativeWeights weights = .error fault) :
    fault = .tooWide ∨ fault = .negativeTable weights := by
  unfold cumulativeWeights at h
  split at h
  · cases h
    exact .inl rfl
  · split at h <;> cases h
    exact .inr rfl

@[simp] theorem Pool.size_draw (p : Pool) (s : Source) : (p.draw s).pool.size = p.size := by
  have hstock : p.stocked.size = p.size := by
    unfold Pool.stocked
    split <;> rfl
  unfold Pool.draw
  simp only
  split
  · exact hstock
  · split
    · rename_i htake
      obtain ⟨member, -, hpool⟩ := Option.map_eq_some_iff.mp htake
      rw [← hstock, ← congrArg (fun drawn => drawn.2.size) hpool]
    · exact hstock

@[simp] theorem WeightedPool.weights_draw (p : WeightedPool) (s : Source) :
    (p.draw s).pool.weights = p.weights := by
  have hstock : p.stocked.weights = p.weights := by
    unfold WeightedPool.stocked
    split <;> rfl
  unfold WeightedPool.draw
  simp only
  split <;> exact hstock

theorem Pool.follows_draw (p : Pool) (s : Source) : s.Follows (p.draw s).source := by
  unfold Pool.draw
  simp only
  split
  · exact .refl s
  · rename_i hdrawn
    split <;> exact Source.follows_uniformIndex hdrawn

theorem WeightedPool.follows_draw (p : WeightedPool) (s : Source) :
    s.Follows (p.draw s).source := by
  unfold WeightedPool.draw
  simp only
  split
  · exact .refl s
  · rename_i hdrawn
    obtain ⟨sums, -, hsums⟩ := weightedIndex_eq_ok hdrawn
    exact follows_cumulativeIndex hsums

end Stimulus.Sampling
