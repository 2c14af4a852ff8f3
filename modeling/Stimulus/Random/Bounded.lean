/-!
# One attempt of a bounded draw

A word of `bits` bits is multiplied by the number of values; the high part of the product is the
value drawn. A word is rejected if the low part of its product is among the first few, so that
equally many words are left for every value.
-/
namespace Stimulus.Random

/-- How many low parts are rejected: the words that are left over when the words are shared out
equally. -/
def surplus (bits count : Nat) : Nat := ((1 <<< bits) - count) % count

/-- The value below `count` that a word gives, or `none` if the word is rejected. -/
def attempt (bits count word : Nat) : Option Nat :=
  let product := word * count
  let low := product % (1 <<< bits)
  if low < count && low < surplus bits count then none else some (product >>> bits)

theorem div_lt_of_word {bits count word : Nat} (hw : word < 1 <<< bits) (hc : 0 < count) :
    (word * count) >>> bits < count := by
  rw [Nat.one_shiftLeft] at hw
  rw [Nat.shiftRight_eq_div_pow, Nat.div_lt_iff_lt_mul (Nat.two_pow_pos bits), Nat.mul_comm count]
  exact Nat.mul_lt_mul_of_pos_right hw hc

theorem lt_of_attempt {bits count word v : Nat} (hw : word < 1 <<< bits) (hc : 0 < count)
    (h : attempt bits count word = some v) : v < count := by
  simp only [attempt] at h
  split at h
  · cases h
  · cases h
    exact div_lt_of_word hw hc

end Stimulus.Random
