import Mathlib.Algebra.GroupWithZero.Nat
import Stimulus.Text.Numeral

/-!
# Numerals that are read back

The digits of a number in any base up to sixteen, also behind zeros, are read as that number.
-/
namespace Stimulus.Text.Numeral

theorem digit?_digitChar {d : Nat} (h : d < 16) : digit? d.digitChar = some d := by
  revert d
  decide

/-- Every character of a number is a digit of the base. -/
theorem exists_digit_of_mem_toDigits {base : Nat} (hbase : 1 < base) {n : Nat} {c : Char}
    (h : c ∈ base.toDigits n) : ∃ d < base, c = d.digitChar := by
  induction n using Nat.strongRecOn with
  | ind n ih =>
    by_cases hn : n < base
    · rw [Nat.toDigits_of_lt_base hn, List.mem_singleton] at h
      exact ⟨n, hn, h⟩
    · have hle : base ≤ n := Nat.le_of_not_lt hn
      rw [Nat.toDigits_of_base_le hbase hle, List.mem_append, List.mem_singleton] at h
      obtain h | h := h
      · exact ih (n / base) (Nat.div_lt_self (by omega) hbase) h
      · exact ⟨n % base, Nat.mod_lt n (by omega), h⟩

variable {base : Nat}

/-- A character that is no digit or letter is not in a number. -/
theorem not_mem_toDigits (hbase : 1 < base) (hle : base ≤ 16) {c : Char} (hc : digit? c = none)
    (n : Nat) : c ∉ base.toDigits n := by
  intro hmem
  obtain ⟨d, hd, rfl⟩ := exists_digit_of_mem_toDigits hbase hmem
  rw [digit?_digitChar (by omega)] at hc
  cases hc

theorem digitsAfter_cons {value d : Nat} {c : Char} (hc : digit? c = some d) (hd : d < base)
    (cs : List Char) :
    digitsAfter base value (c :: cs) = digitsAfter base (value * base + d) cs := by
  have hne : c ≠ '_' := by
    rintro rfl
    cases hc
  rw [digitsAfter]
  · simp only [hc, Option.bind_some, if_pos hd]
  · exact fun _ _ heq => absurd heq hne

/-- A further digit counts once, and those before it count the base. -/
theorem digitsAfter_append {value n d : Nat} {cs : List Char} {c : Char}
    (h : digitsAfter base value cs = some n) (hc : digit? c = some d) (hd : d < base) :
    digitsAfter base value (cs ++ [c]) = some (n * base + d) := by
  fun_induction digitsAfter base value cs with
  | case1 value =>
    cases h
    exact digitsAfter_cons hc hd []
  | case2 value e cs ih =>
    simp only [Option.bind_eq_some_iff, Option.ite_none_right_eq_some] at h
    obtain ⟨k, he, hk, h⟩ := h
    rw [List.cons_append, List.cons_append, digitsAfter, he, Option.bind_some, if_pos hk]
    exact ih k h
  | case3 value e cs _ ih =>
    simp only [Option.bind_eq_some_iff, Option.ite_none_right_eq_some] at h
    obtain ⟨k, he, hk, h⟩ := h
    rw [List.cons_append, digitsAfter_cons he hk]
    exact ih k h

theorem digits?_append {n d : Nat} {cs : List Char} {c : Char}
    (h : digits? base cs = some n) (hc : digit? c = some d) (hd : d < base) :
    digits? base (cs ++ [c]) = some (n * base + d) := by
  cases cs with
  | nil => cases h
  | cons first rest =>
    simp only [digits?, List.cons_append, Option.bind_eq_some_iff,
      Option.ite_none_right_eq_some] at h ⊢
    obtain ⟨k, hfirst, hk, h⟩ := h
    exact ⟨k, hfirst, hk, digitsAfter_append h hc hd⟩

/-- The digits of a number are read as the number. -/
theorem digits?_toDigits (hbase : 1 < base) (hle : base ≤ 16) (n : Nat) :
    digits? base (base.toDigits n) = some n := by
  induction n using Nat.strongRecOn with
  | ind n ih =>
    by_cases hn : n < base
    · rw [Nat.toDigits_of_lt_base hn]
      simp [digits?, digitsAfter, digit?_digitChar (show n < 16 by omega), hn]
    · have hle' : base ≤ n := Nat.le_of_not_lt hn
      have hmod : n % base < base := Nat.mod_lt n (by omega)
      rw [Nat.toDigits_of_base_le hbase hle',
        digits?_append (ih (n / base) (Nat.div_lt_self (by omega) hbase))
          (digit?_digitChar (by omega)) hmod, Nat.div_add_mod']

/-- A zero in front changes nothing. -/
theorem digits?_zero_cons {n : Nat} {cs : List Char} (h : digits? base cs = some n) :
    digits? base ('0' :: cs) = some n := by
  cases cs with
  | nil => cases h
  | cons c rest =>
    simp only [digits?, Option.bind_eq_some_iff, Option.ite_none_right_eq_some] at h
    obtain ⟨d, hc, hd, h⟩ := h
    have hzero : digit? '0' = some 0 := rfl
    rw [digits?, hzero, Option.bind_some, if_pos (by omega), digitsAfter_cons hc hd, Nat.zero_mul,
      Nat.zero_add, h]

theorem digits?_hexDigits (width n : Nat) : digits? 16 (hexDigits width n) = some n := by
  simp only [hexDigits]
  generalize width - (Nat.toDigits 16 n).length = zeros
  induction zeros with
  | zero => simpa using digits?_toDigits (by decide) (by decide) n
  | succ zeros ih => exact digits?_zero_cons ih

theorem length_hexDigits {width n : Nat} (hwidth : 0 < width) (h : n < 16 ^ width) :
    (hexDigits width n).length = width := by
  have hle := (Nat.length_toDigits_le_iff (by decide) hwidth).mpr h
  simp only [hexDigits, List.length_append, List.length_replicate]
  omega

theorem not_mem_hexDigits {c : Char} (hc : digit? c = none) (width n : Nat) :
    c ∉ hexDigits width n := by
  simp only [hexDigits, List.mem_append, List.mem_replicate, not_or]
  refine ⟨fun ⟨_, hzero⟩ => ?_, not_mem_toDigits (by decide) (by decide) hc n⟩
  rw [hzero] at hc
  exact absurd hc (by decide)

end Stimulus.Text.Numeral
