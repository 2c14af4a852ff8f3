import Mathlib.Data.List.Perm.Basic
import Stimulus.Proofs.Random.Stream
import Stimulus.Proofs.Sampling.Bisection
import Stimulus.Proofs.Sampling.Rounds

/-!
# The stock of a pool

What the two kinds of pools hold is a bag of members. A draw takes one copy out of the bag that it
draws from, or fails and takes none. Running sums are exact as long as the total of the weights is a
signed number of 64 bits.
-/
namespace Stimulus.Sampling

open Stimulus.Random

/-- A draw that takes a copy out of `stock` and tells whether it was the last one, or fails. -/
structure Draw.TakesFrom {Pool : Type} (d : Draw Pool) (contents : Pool → Multiset Nat)
    (stock : Multiset Nat) : Prop where
  ok : ∀ ticket, d.outcome = .ok ticket → ticket.member ∈ stock ∧
    contents d.pool = stock.erase ticket.member ∧ (ticket.last = true ↔ contents d.pool = 0)
  error : ∀ failure, d.outcome = .error failure → contents d.pool = stock

namespace Pool

def contents (p : Pool) : Multiset Nat := p.remaining

theorem cons_swapRemove_perm {place i : Nat} {xs : List Nat} (h : xs[place]? = some i) :
    (i :: swapRemove place xs).Perm xs := by
  obtain ⟨hplace, rfl⟩ := List.getElem?_eq_some_iff.mp h
  obtain rfl | ⟨ys, last, rfl⟩ := List.eq_nil_or_concat' xs
  · simp at hplace
  · simp only [swapRemove, List.getLast?_concat]
    by_cases hlt : place < ys.length
    · rw [List.set_append_left _ _ hlt, List.dropLast_concat, List.getElem_append_left hlt]
      have hset := (List.set_perm_cons_eraseIdx hlt last).cons ys[place]
      have hback := (List.getElem_cons_eraseIdx_perm hlt).cons last
      exact (hset.trans (.swap ..)).trans (hback.trans (List.perm_append_singleton last ys).symm)
    · have hlast : place = ys.length := by
        rw [List.length_append, List.length_singleton] at hplace
        omega
      subst hlast
      rw [List.set_append_right _ _ (Nat.le_refl _), Nat.sub_self]
      simp only [List.set_cons_zero, List.dropLast_concat, List.getElem_concat_length]
      exact (List.perm_append_singleton last ys).symm

theorem takesFrom_draw (p : Pool) (s : Source) :
    (p.draw s).TakesFrom contents p.stocked.contents := by
  unfold draw
  simp only
  split
  · exact ⟨by simp, fun _ _ => rfl⟩
  · rename_i place t hplace
    split
    · rename_i ticket taken htake
      obtain ⟨member, hmember, hpair⟩ := Option.map_eq_some_iff.mp htake
      cases hpair
      refine ⟨?_, by simp⟩
      rintro _ ⟨⟩
      have hperm := Multiset.coe_eq_coe.mpr (cons_swapRemove_perm hmember)
      refine ⟨List.mem_of_getElem? hmember, ?_, ?_⟩
      · rw [contents, contents, ← hperm, ← Multiset.cons_coe, Multiset.erase_cons_head]
      · simp [contents]
    · exact ⟨by simp, fun _ _ => rfl⟩

/-- The ticket of a draw tells whether it has emptied the pool. -/
theorem last_draw {p : Pool} {s : Source} {ticket : Ticket}
    (h : (p.draw s).outcome = .ok ticket) : ticket.last = true ↔ (p.draw s).pool.remaining = [] :=
  ((p.takesFrom_draw s).ok ticket h).2.2.trans (Multiset.coe_eq_zero _)

end Pool

/-! ## Weights -/

/-- The bag with as many copies of each member as its weight. -/
def copiesOf (weights : List Int) : Multiset Nat := bag (weights.map Int.toNat)

theorem count_copiesOf (weights : List Int) (i : Nat) :
    (copiesOf weights).count i = (weights.getD i 0).toNat := by
  rw [copiesOf, count_bag, List.getD_eq_getElem?_getD, List.getD_eq_getElem?_getD,
    List.getElem?_map]
  cases weights[i]? <;> rfl

theorem mem_copiesOf {weights : List Int} {i : Nat} {w : Int} (hi : weights[i]? = some w)
    (hw : 0 < w) : i ∈ copiesOf weights := by
  rw [← Multiset.count_pos, count_copiesOf, List.getD_eq_getElem?_getD, hi]
  simpa using hw

theorem totalWeight_nonneg {weights : List Int} (hweights : ∀ w ∈ weights, 0 ≤ w) :
    0 ≤ totalWeight weights := by
  induction weights with
  | nil => exact le_rfl
  | cons w rest ih =>
    rw [List.forall_mem_cons] at hweights
    have hrest := ih hweights.2
    simp only [totalWeight]
    omega

theorem card_copiesOf {weights : List Int} (hweights : ∀ w ∈ weights, 0 ≤ w) :
    ((copiesOf weights).card : Int) = totalWeight weights := by
  rw [copiesOf, card_bag]
  induction weights with
  | nil => rfl
  | cons w rest ih =>
    rw [List.forall_mem_cons] at hweights
    rw [List.map_cons, List.sum_cons, Int.natCast_add, ih hweights.2,
      Int.toNat_of_nonneg hweights.1]
    rfl

/-- No copy is left exactly if the total is zero. -/
theorem copiesOf_eq_zero_iff {weights : List Int} (hweights : ∀ w ∈ weights, 0 ≤ w) :
    copiesOf weights = 0 ↔ totalWeight weights = 0 := by
  rw [← card_copiesOf hweights, Int.natCast_eq_zero, Multiset.card_eq_zero]

theorem totalWeight_modify_pred {weights : List Int} {i : Nat} (hi : i < weights.length) :
    totalWeight (weights.modify i (· - 1)) = totalWeight weights - 1 := by
  induction weights generalizing i with
  | nil => cases hi
  | cons w rest ih =>
    cases i with
    | zero =>
      simp only [List.modify_zero_cons, totalWeight]
      omega
    | succ i =>
      simp only [List.modify_succ_cons, totalWeight, ih (Nat.lt_of_succ_lt_succ hi)]
      omega

/-- One copy less of a member takes that copy out of the bag. -/
theorem copiesOf_modify_pred (weights : List Int) (i : Nat) :
    copiesOf (weights.modify i (· - 1)) = (copiesOf weights).erase i := by
  ext j
  rw [count_copiesOf, List.getD_eq_getElem?_getD, List.getElem?_modify]
  by_cases hij : i = j
  · subst hij
    rw [Multiset.count_erase_self, count_copiesOf, List.getD_eq_getElem?_getD]
    cases weights[i]? with
    | none => rfl
    | some w => simp
  · rw [Multiset.count_erase_of_ne (Ne.symm hij), count_copiesOf, List.getD_eq_getElem?_getD]
    cases weights[j]? with
    | none => rfl
    | some w => simp [hij]

/-! ## Running sums -/

/-- A signed number of 64 bits is not changed by wrapping. -/
theorem wrapSigned_of_mem {x : Int} (hlow : 0 ≤ x) (hhigh : x ≤ Source.greatestSigned) :
    wrapSigned x = x := by
  have hgreatest : Source.greatestSigned = 9223372036854775807 := rfl
  rw [wrapSigned, Nat.one_shiftLeft]
  exact Int.bmod_eq_of_le (by omega) (by omega)

theorem cumulativeWeights_eq_ok {weights sums : List Int}
    (h : cumulativeWeights weights = .ok sums) : sums = runningSums 0 weights := by
  unfold cumulativeWeights at h
  split at h
  · cases h
  · split at h
    · cases h
    · exact (Except.ok.inj h).symm

theorem wrapSigned_wrapSigned (x : Int) : wrapSigned (wrapSigned x) = wrapSigned x :=
  Int.bmod_bmod

/-- Where running sums come to exceed a number, there is a member with a copy: the sum at its place
differs from the one before it. This holds for sums that are wrapped, too. -/
theorem Crosses.exists_weight {weights : List Int} {sum r : Int} {i : Nat}
    (h : Crosses sum (runningSums sum weights) r i) (hi : i < (runningSums sum weights).length)
    (hweights : ∀ w ∈ weights, 0 ≤ w) (hsum : wrapSigned sum = sum) :
    ∃ w, weights[i]? = some w ∧ 0 < w := by
  induction weights generalizing sum i with
  | nil => cases hi
  | cons w rest ih =>
    rw [List.forall_mem_cons] at hweights
    rw [runningSums] at h hi
    cases i with
    | zero =>
      have hbefore := h.before sum rfl
      have habove := h.above _ rfl
      have hne : w ≠ 0 := by
        rintro rfl
        rw [Int.add_zero, hsum] at habove
        omega
      exact ⟨w, rfl, by have := hweights.1; omega⟩
    | succ i => exact ih h.tail (Nat.lt_of_succ_lt_succ hi) hweights.2 (wrapSigned_wrapSigned _)

/-- A number below the last running sum is located at a member with a copy. -/
theorem locate_runningSums {weights : List Int} {sum r : Int} (hweights : ∀ w ∈ weights, 0 ≤ w)
    (hsum : wrapSigned sum = sum) (hle : sum ≤ r)
    (hlt : r < (runningSums sum weights).getLast?.getD sum) :
    ∃ w, weights[locate (runningSums sum weights) r]? = some w ∧ 0 < w := by
  obtain ⟨hcrosses, -⟩ := crosses_locate hle (runningSums sum weights)
  exact hcrosses.exists_weight (locate_lt hle hlt) hweights hsum

/-- A weighted draw takes a member with a copy. -/
theorem weightedIndex_mem {weights : List Int} {i : Nat} {s t : Source}
    (hweights : ∀ w ∈ weights, 0 ≤ w) (h : weightedIndex weights s = .ok (i, t)) :
    ∃ w, weights[i]? = some w ∧ 0 < w := by
  obtain ⟨sums, hsums, hindex⟩ := weightedIndex_eq_ok h
  obtain rfl := cumulativeWeights_eq_ok hsums
  obtain ⟨r, hr, rfl⟩ := cumulativeIndex_eq_ok hindex
  obtain ⟨hlow, hhigh⟩ := Source.uniformInt_mem hr
  rw [cumulativeTotal] at hhigh
  exact locate_runningSums hweights rfl hlow (by omega)

/-! ## Weighted pools -/

namespace WeightedPool

def contents (p : WeightedPool) : Multiset Nat := copiesOf p.remaining

/-- A weighted pool whose counts and total are numbers of copies that fit their words. -/
structure Sound (p : WeightedPool) : Prop where
  weights_nonneg : ∀ w ∈ p.weights, 0 ≤ w
  weights_fit : totalWeight p.weights ≤ Source.greatestSigned
  counts_nonneg : ∀ c ∈ p.remaining, 0 ≤ c
  counts_fit : totalWeight p.remaining ≤ Source.greatestSigned
  total_eq : p.total = totalWeight p.remaining

theorem sound_full {weights : List Int} (hweights : ∀ w ∈ weights, 0 ≤ w)
    (hfits : totalWeight weights ≤ Source.greatestSigned) : (full weights).Sound where
  weights_nonneg := hweights
  weights_fit := hfits
  counts_nonneg := hweights
  counts_fit := hfits
  total_eq := wrapSigned_of_mem (totalWeight_nonneg hweights) hfits

namespace Sound

variable {p : WeightedPool}

theorem refill (hp : p.Sound) : p.refill.Sound := sound_full hp.weights_nonneg hp.weights_fit

theorem stocked (hp : p.Sound) : p.stocked.Sound := by
  unfold WeightedPool.stocked
  split
  · exact hp.refill
  · exact hp

theorem total_eq_zero_iff (hp : p.Sound) : p.total = 0 ↔ p.contents = 0 := by
  rw [hp.total_eq, contents, copiesOf_eq_zero_iff hp.counts_nonneg]

theorem take (hp : p.Sound) {i : Nat} {c : Int} (hi : p.remaining[i]? = some c) (hc : 0 < c) :
    (p.take i).2.Sound where
  weights_nonneg := hp.weights_nonneg
  weights_fit := hp.weights_fit
  counts_nonneg := by
    intro d hd
    obtain ⟨j, hj⟩ := List.mem_iff_getElem?.mp hd
    simp only [WeightedPool.take, List.getElem?_modify] at hj
    obtain ⟨e, he, rfl⟩ := Option.map_eq_some_iff.mp hj
    have hnonneg := hp.counts_nonneg e (List.mem_of_getElem? he)
    split
    · rename_i hij
      subst hij
      have hce : c = e := Option.some.inj (hi.symm.trans he)
      omega
    · exact hnonneg
  counts_fit := by
    have hlt := (List.getElem?_eq_some_iff.mp hi).1
    have hfit := hp.counts_fit
    simp only [WeightedPool.take, totalWeight_modify_pred hlt]
    omega
  total_eq := by
    have hlt := (List.getElem?_eq_some_iff.mp hi).1
    simp only [WeightedPool.take, totalWeight_modify_pred hlt, hp.total_eq]

end Sound

theorem contents_take (p : WeightedPool) (i : Nat) :
    (p.take i).2.contents = p.contents.erase i := copiesOf_modify_pred p.remaining i

theorem sound_draw {p : WeightedPool} (hp : p.Sound) (s : Source) : (p.draw s).pool.Sound := by
  unfold draw
  simp only
  split
  · exact hp.stocked
  · rename_i i t hdrawn
    have hstock := hp.stocked
    obtain ⟨c, hi, hc⟩ := weightedIndex_mem hstock.counts_nonneg hdrawn
    exact hstock.take hi hc

theorem takesFrom_draw {p : WeightedPool} (hp : p.Sound) (s : Source) :
    (p.draw s).TakesFrom contents p.stocked.contents := by
  have hstock := hp.stocked
  unfold draw
  simp only
  split
  · exact ⟨by simp, fun _ _ => rfl⟩
  · rename_i i t hdrawn
    obtain ⟨c, hi, hc⟩ := weightedIndex_mem hstock.counts_nonneg hdrawn
    refine ⟨?_, by simp⟩
    rintro _ ⟨⟩
    refine ⟨mem_copiesOf hi hc, contents_take p.stocked i, ?_⟩
    rw [← (hstock.take hi hc).total_eq_zero_iff]
    simp [WeightedPool.take]

/-- The ticket of a draw tells whether the total has come to zero, whatever the total was. -/
theorem last_draw {p : WeightedPool} {s : Source} {ticket : Ticket}
    (h : (p.draw s).outcome = .ok ticket) : ticket.last = true ↔ (p.draw s).pool.total = 0 := by
  unfold draw at h ⊢
  simp only at h ⊢
  split at h
  · cases h
  · cases h
    exact beq_iff_eq

end WeightedPool

end Stimulus.Sampling
