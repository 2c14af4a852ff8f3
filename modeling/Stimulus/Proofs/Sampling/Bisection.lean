import Stimulus.Sampling.WeightTable

/-!
# Bisection

Bisection ends at a place where the running sums come to exceed a number, whatever their order. Sums
that have not wrapped around are in order; then there is only one such place, and it is the one that
a search from the front finds.
-/
namespace Stimulus.Sampling

/-- A place where sums behind `sum` come to exceed `r`: the one before the place does not, and the
one at the place does. -/
structure Crosses (sum : Int) (sums : List Int) (r : Int) (i : Nat) : Prop where
  before : ∀ a, (sum :: sums)[i]? = some a → a ≤ r
  above : ∀ b, sums[i]? = some b → r < b

variable {sum next r : Int} {sums : List Int} {i start stop : Nat}

theorem Crosses.tail (h : Crosses sum (next :: sums) r (i + 1)) : Crosses next sums r i where
  before := by simpa using h.before
  above := by simpa using h.above

theorem crosses_bisect (hle : start ≤ stop) (hstop : stop ≤ sums.length)
    (hbefore : ∀ a, (sum :: sums)[start]? = some a → a ≤ r)
    (habove : ∀ b, sums[stop]? = some b → r < b) :
    Crosses sum sums r (bisect sums r start stop) ∧ bisect sums r start stop ≤ sums.length := by
  fun_induction bisect sums r start stop with
  | case1 start stop hlt middle hmiddle ih =>
    have hplace : middle < sums.length := by omega
    refine ih (by omega) hstop (fun a ha => ?_) habove
    rw [List.getElem?_cons_succ] at ha
    rwa [List.getD_eq_getElem?_getD, ha] at hmiddle
  | case2 start stop hlt middle hmiddle ih =>
    refine ih (by omega) (by omega) hbefore fun b hb => ?_
    rw [List.getD_eq_getElem?_getD, hb] at hmiddle
    exact Int.not_le.mp hmiddle
  | case3 start stop hlt =>
    obtain rfl : start = stop := by omega
    exact ⟨⟨hbefore, habove⟩, hstop⟩

theorem crosses_locate (hle : sum ≤ r) (sums : List Int) :
    Crosses sum sums r (locate sums r) ∧ locate sums r ≤ sums.length := by
  refine crosses_bisect (Nat.zero_le _) (Nat.le_refl _) (fun a ha => ?_) fun b hb => ?_
  · cases ha
    exact hle
  · simp at hb

/-- A number below the last sum is located at one of the sums. -/
theorem locate_lt (hle : sum ≤ r) (hlt : r < sums.getLast?.getD sum) :
    locate sums r < sums.length := by
  obtain ⟨hcrosses, hlength⟩ := crosses_locate hle sums
  apply Nat.lt_of_le_of_ne hlength
  intro heq
  have hlast := hcrosses.before (sums.getLast?.getD sum) (by
    rw [heq, ← List.getLast?_cons, List.getLast?_eq_getElem?]
    simp)
  omega

/-- Among sums in order there is one place only where they come to exceed a number. -/
theorem Crosses.eq_length_takeWhile (h : Crosses sum sums r i) (hi : i ≤ sums.length)
    (hsorted : sums.Pairwise (· ≤ ·)) : i = (sums.takeWhile (· ≤ r)).length := by
  induction sums generalizing sum i with
  | nil => simpa using hi
  | cons next rest ih =>
    obtain ⟨hfirst, hrest⟩ := List.pairwise_cons.mp hsorted
    by_cases hnext : next ≤ r
    · cases i with
      | zero => exact absurd (h.above next rfl) (Int.not_lt.mpr hnext)
      | succ i => simp [hnext, ← ih h.tail (Nat.le_of_succ_le_succ hi) hrest]
    · cases i with
      | zero => simp [hnext]
      | succ i =>
        have hplace : i < (next :: rest).length := by omega
        have hle := h.before (next :: rest)[i] (List.getElem?_eq_getElem hplace)
        obtain heq | hmem := List.mem_cons.mp (List.getElem_mem hplace)
        · omega
        · have hnot := hfirst _ hmem
          omega

/-- A search from the front. -/
theorem locate_eq_length_takeWhile (hsorted : sums.Pairwise (· ≤ ·)) (r : Int) :
    locate sums r = (sums.takeWhile (· ≤ r)).length := by
  obtain ⟨hcrosses, hlength⟩ := crosses_locate (Int.le_refl r) sums
  exact hcrosses.eq_length_takeWhile hlength hsorted

-- The sums of these weights wrap around: from the front, the first one is above already.
example :
    let sums := runningSums 0 [1 <<< 62, 1 <<< 62, 1 <<< 62, 1 <<< 62, 5]
    locate sums 3 = 4 ∧ (sums.takeWhile (· ≤ 3)).length = 0 := by decide +kernel

theorem locate_cons (hsorted : (next :: sums).Pairwise (· ≤ ·)) (r : Int) :
    locate (next :: sums) r = if next ≤ r then locate sums r + 1 else 0 := by
  rw [locate_eq_length_takeWhile hsorted,
    locate_eq_length_takeWhile (List.pairwise_cons.mp hsorted).2, List.takeWhile_cons]
  by_cases h : next ≤ r <;> simp [h]

end Stimulus.Sampling
