import Mathlib.Algebra.BigOperators.Option
import Mathlib.Algebra.Order.Floor.Div
import Mathlib.Order.Interval.Finset.Nat
import Stimulus.Random.Bounded

/-!
# Shares of the words

The words of an attempt are shared out equally: every value below `count` gets the words whose
products lie in one stretch between multiples of the number of words, less the surplus at its start.
The stretches that are left have the same length, a multiple of `count`.
-/
namespace Stimulus.Random

theorem surplus_eq {bits count : Nat} (hle : count ≤ 1 <<< bits) :
    surplus bits count = (1 <<< bits) % count := (Nat.mod_eq_sub_mod hle).symm

theorem words_pos (bits : Nat) : 0 < 1 <<< bits := by
  rw [Nat.one_shiftLeft]
  exact Nat.two_pow_pos bits

theorem lt_ceilDiv_add_iff {a n d w : Nat} (hn : 0 < n) :
    w < a ⌈/⌉ n + d ↔ n * w < a + n * d := by
  by_cases hd : d ≤ w
  · obtain ⟨u, rfl⟩ := Nat.exists_eq_add_of_le hd
    have hu : a ⌈/⌉ n ≤ u ↔ a ≤ n * u := ceilDiv_le_iff_le_mul hn
    rw [Nat.mul_add]
    omega
  · have hw : n * w < n * d := Nat.mul_lt_mul_of_pos_left (by omega) hn
    omega

section

variable {bits count : Nat} (hpos : 0 < count) (hle : count ≤ 1 <<< bits)
include hpos hle

/-- A word gives the value in whose stretch its product lies, past the surplus. The shortcut that
compares with `count` first changes nothing, as the surplus is less than `count`. -/
theorem attempt_eq_some_iff {word v : Nat} :
    attempt bits count word = some v ↔
      v * (1 <<< bits) + (1 <<< bits) % count ≤ word * count ∧
        word * count < v * (1 <<< bits) + 1 <<< bits := by
  have hM := words_pos bits
  have hsurplus := Nat.mod_lt (1 <<< bits) hpos
  have hproduct := Nat.div_add_mod' (word * count) (1 <<< bits)
  have hlow := Nat.mod_lt (word * count) hM
  have hhigh : (word * count) >>> bits = word * count / 1 <<< bits := by
    rw [Nat.one_shiftLeft, Nat.shiftRight_eq_div_pow]
  simp only [attempt, surplus_eq hle, hhigh]
  constructor
  · intro h
    split at h
    · cases h
    · rename_i haccepted
      cases h
      simp only [Bool.and_eq_true, decide_eq_true_eq] at haccepted
      omega
  · rintro ⟨hfrom, hto⟩
    have hv : word * count / 1 <<< bits = v := by
      rw [Nat.div_eq_iff hM]
      omega
    rw [hv] at hproduct ⊢
    rw [if_neg]
    simp only [Bool.and_eq_true, decide_eq_true_eq]
    omega

/-- The words of one value are consecutive, and there are as many as `count` goes into their
number. -/
theorem filter_attempt_eq {v : Nat} (hv : v < count) :
    (Finset.range (1 <<< bits)).filter (attempt bits count · = some v) =
      let first := (v * (1 <<< bits) + (1 <<< bits) % count) ⌈/⌉ count
      Finset.Ico first (first + (1 <<< bits) / count) := by
  have hM := Nat.div_add_mod (1 <<< bits) count
  have hlast : v * (1 <<< bits) + 1 <<< bits ≤ count * (1 <<< bits) := by
    rw [← Nat.succ_mul]
    exact Nat.mul_le_mul_right _ hv
  ext word
  rw [Finset.mem_filter, Finset.mem_range, Finset.mem_Ico, attempt_eq_some_iff hpos hle,
    ceilDiv_le_iff_le_mul hpos, lt_ceilDiv_add_iff hpos, Nat.mul_comm word count]
  constructor
  · rintro ⟨-, hfrom, hto⟩
    exact ⟨hfrom, by omega⟩
  · rintro ⟨hfrom, hto⟩
    have hword : count * word < count * (1 <<< bits) := by omega
    exact ⟨Nat.lt_of_mul_lt_mul_left hword, hfrom, by omega⟩

theorem card_attempt_eq_some {v : Nat} (hv : v < count) :
    ((Finset.range (1 <<< bits)).filter (attempt bits count · = some v)).card =
      (1 <<< bits) / count := by
  rw [filter_attempt_eq hpos hle hv]
  simp

theorem card_attempt_eq_none :
    ((Finset.range (1 <<< bits)).filter (attempt bits count · = none)).card =
      (1 <<< bits) % count := by
  have hmaps : Set.MapsTo (attempt bits count) (Finset.range (1 <<< bits))
      (Finset.insertNone (Finset.range count)) := by
    intro word hword
    have hlt := Finset.mem_range.mp hword
    simp only [Finset.mem_coe, Finset.mem_insertNone, Finset.mem_range]
    exact fun v hv => lt_of_attempt hlt hpos hv
  have htotal := Finset.card_eq_sum_card_fiberwise hmaps
  have hshares : ∀ v ∈ Finset.range count,
      ((Finset.range (1 <<< bits)).filter (attempt bits count · = some v)).card =
        (1 <<< bits) / count :=
    fun v hv => card_attempt_eq_some hpos hle (Finset.mem_range.mp hv)
  rw [Finset.sum_insertNone, Finset.sum_congr rfl hshares, Finset.sum_const, Finset.card_range,
    Finset.card_range, smul_eq_mul] at htotal
  have hM := Nat.div_add_mod (1 <<< bits) count
  omega

/-- Some word is accepted. -/
theorem exists_attempt_eq_some :
    ∃ word < 1 <<< bits, ∃ v, attempt bits count word = some v := by
  have hshare : 0 < (1 <<< bits) / count := Nat.div_pos hle hpos
  rw [← card_attempt_eq_some hpos hle hpos, Finset.card_pos] at hshare
  obtain ⟨word, hword⟩ := hshare
  rw [Finset.mem_filter, Finset.mem_range] at hword
  exact ⟨word, hword.1, 0, hword.2⟩

end

end Stimulus.Random
