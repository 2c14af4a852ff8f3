import Mathlib.Data.BitVec
import Mathlib.Logic.Function.Iterate
import Mathlib.Tactic.LinearCombination
import Mathlib.Tactic.Ring
import Stimulus.Random.Pcg

/-!
# The cycle of states

The multiplier leaves one modulo four and the increment is odd, so the congruential generator runs
through all states from each of them: every word comes up again and again.
-/
namespace Stimulus.Random.Pcg

theorem even_or_odd (x : BitVec 128) : ∃ m, x = 2 * m ∨ x = 2 * m + 1 := by
  have htwo : (2 : BitVec 128).toNat = 2 := rfl
  have hhalf : (2 * (x / 2)).toNat = 2 * (x.toNat / 2) := by
    rw [BitVec.toNat_mul, BitVec.toNat_udiv, htwo]
    exact Nat.mod_eq_of_lt (by omega)
  refine ⟨x / 2, ?_⟩
  by_cases heven : x.toNat % 2 = 0
  · left
    apply BitVec.eq_of_toNat_eq
    rw [hhalf]
    omega
  · right
    apply BitVec.eq_of_toNat_eq
    have hone : (1 : BitVec 128).toNat = 1 := rfl
    rw [BitVec.toNat_add, hhalf, hone]
    omega

theorem exists_increment_eq (g : Pcg) : ∃ u, g.increment = 2 * u + 1 := by
  obtain ⟨u, heven | hodd⟩ := even_or_odd g.increment
  · have hlow := g.odd
    rw [heven] at hlow
    simp [BitVec.getLsbD] at hlow
  · exact ⟨u, hodd⟩

theorem exists_multiplier_eq : ∃ t, multiplier = 1 + 4 * t := ⟨multiplier >>> 2, by decide⟩

theorem increment_update (g : Pcg) (state : BitVec 128) :
    ({ g with state } : Pcg).increment = g.increment := rfl

-- Without the lemma the new state is compared with the old one, by carrying out the arithmetic.
@[simp] theorem increment_step (g : Pcg) : g.step.increment = g.increment := increment_update g _

@[simp] theorem increment_iterate (g : Pcg) (n : Nat) : (step^[n] g).increment = g.increment := by
  induction n generalizing g with
  | zero => rfl
  | succ n ih => rw [Function.iterate_succ_apply, ih, increment_step]

/-- The coefficients of `2 ^ k` steps, which depend on the increment alone. -/
theorem exists_state_iterate (g : Pcg) (k : Nat) :
    ∃ t u, ∀ g' : Pcg, g'.increment = g.increment →
      (step^[2 ^ k] g').state = g'.state * (1 + 2 ^ (k + 2) * t) + 2 ^ k * (2 * u + 1) := by
  induction k with
  | zero =>
    obtain ⟨t, ht⟩ := exists_multiplier_eq
    obtain ⟨u, hu⟩ := exists_increment_eq g
    refine ⟨t, u, fun g' hg => ?_⟩
    show g'.state * multiplier + g'.increment = _
    rw [hg, ht, hu]
    ring
  | succ k ih =>
    obtain ⟨t, u, h⟩ := ih
    refine ⟨t + 2 ^ (k + 1) * t * t, u + 2 ^ k * t * (2 * u + 1), fun g' hg => ?_⟩
    have hhalf : (step^[2 ^ k] g').increment = g.increment := by rw [increment_iterate, hg]
    rw [pow_succ, mul_two, Function.iterate_add_apply, h _ hhalf, h _ hg]
    ring

/-- `2 ^ k` steps change the bit of `2 ^ k` and none below it. -/
theorem exists_state_iterate_two_pow (g : Pcg) (k : Nat) :
    ∃ m, (step^[2 ^ k] g).state = g.state + 2 ^ k + 2 ^ (k + 1) * m := by
  obtain ⟨t, u, h⟩ := exists_state_iterate g k
  refine ⟨u + 2 * t * g.state, ?_⟩
  rw [h g rfl]
  ring

/-- Some number of steps brings the lowest `k` bits to those of `y`. -/
theorem exists_low_bits_eq (g : Pcg) (y : BitVec 128) (k : Nat) :
    ∃ n m, y = (step^[n] g).state + 2 ^ k * m := by
  induction k with
  | zero => exact ⟨0, y - g.state, by simp⟩
  | succ k ih =>
    obtain ⟨n, m, hm⟩ := ih
    obtain ⟨half, heven | hodd⟩ := even_or_odd m
    · exact ⟨n, half, by rw [hm, heven]; ring⟩
    · obtain ⟨above, habove⟩ := exists_state_iterate_two_pow (step^[n] g) k
      refine ⟨2 ^ k + n, half - above, ?_⟩
      rw [Function.iterate_add_apply, habove, hm, hodd]
      ring

theorem exists_state_eq (g : Pcg) (y : BitVec 128) : ∃ n, (step^[n] g).state = y := by
  obtain ⟨n, m, hm⟩ := exists_low_bits_eq g y 128
  have hzero : (2 : BitVec 128) ^ 128 = 0 := by decide +kernel
  rw [hzero] at hm
  exact ⟨n, by simpa using hm.symm⟩

/-- A state whose high half is zero gives its low half. -/
theorem output_zero_append (w : UInt64) : output (0#64 ++ w.toBitVec) = w := by
  have hhigh : (0#64 ++ w.toBitVec).extractLsb' 64 64 = 0#64 := BitVec.extractLsb'_append_eq_left
  have hlow : (0#64 ++ w.toBitVec).extractLsb' 0 64 = w.toBitVec :=
    BitVec.extractLsb'_append_eq_right
  have hrotation : (0#64 ++ w.toBitVec).extractLsb' 122 6 = 0#6 := by
    rw [BitVec.extractLsb'_append_eq_of_le (by omega)]
    rfl
  unfold output
  rw [hhigh, hlow, hrotation]
  apply UInt64.toBitVec_inj.mp
  simp [BitVec.rotateRight_def]

/-- Every word comes up behind every state. -/
theorem exists_next_eq (g : Pcg) (w : UInt64) : ∃ n, ((fun g => g.next.2)^[n] g).next.1 = w := by
  obtain ⟨n, hn⟩ := exists_state_eq g.step (0#64 ++ w.toBitVec)
  refine ⟨n, ?_⟩
  show output (step (step^[n] g)).state = w
  rw [← Function.iterate_succ_apply' step, Function.iterate_succ_apply, hn, output_zero_append]

end Stimulus.Random.Pcg
