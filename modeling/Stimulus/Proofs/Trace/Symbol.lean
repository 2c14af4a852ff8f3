import Stimulus.Trace.Symbol

/-!
# Signal symbols that can be told apart

A code is a number in a numeration without a zero: every number of signals has codes of its own, and
a code tells which signal it is of.
-/
namespace Stimulus.Trace

theorem toNat_symbolChar {digit : Nat} (h : digit < symbolBase) :
    (symbolChar digit).toNat = '!'.toNat + digit := by
  revert digit
  decide

/-- The number of a code, counted from one. -/
def symbolNumber : List Char → Nat
  | [] => 0
  | c :: cs => c.toNat - '!'.toNat + 1 + symbolBase * symbolNumber cs

theorem symbolNumber_symbolChars (n : Nat) : symbolNumber (symbolChars n) = n := by
  fun_induction symbolChars n with
  | case1 => rfl
  | case2 n hn ih =>
    have hdigit : (n - 1) % symbolBase < symbolBase := Nat.mod_lt _ (by decide)
    rw [symbolNumber, ih, toNat_symbolChar hdigit, Nat.add_sub_cancel_left, Nat.add_right_comm,
      Nat.mod_add_div]
    omega

theorem symbol_injective : Function.Injective symbol := by
  intro i j h
  have hchars : symbolChars (i + 1) = symbolChars (j + 1) := String.ofList_injective h
  have hnumber := congrArg symbolNumber hchars
  rw [symbolNumber_symbolChars, symbolNumber_symbolChars] at hnumber
  exact Nat.succ.inj hnumber

/-- The characters of a code are those from `!` to `~`. -/
theorem mem_symbolChars {n : Nat} {c : Char} (h : c ∈ symbolChars n) :
    '!'.toNat ≤ c.toNat ∧ c.toNat ≤ '~'.toNat := by
  fun_induction symbolChars n with
  | case1 => cases h
  | case2 n hn ih =>
    rw [List.mem_cons] at h
    obtain rfl | h := h
    · have hdigit : (n - 1) % symbolBase < symbolBase := Nat.mod_lt _ (by decide)
      rw [toNat_symbolChar hdigit]
      have hbase : '!'.toNat + symbolBase = '~'.toNat + 1 := rfl
      omega
    · exact ih h

/-- A code holds no blank and ends no line. -/
theorem not_mem_symbol {i : Nat} {c : Char} (hc : c.toNat < '!'.toNat) :
    c ∉ (symbol i).toList := by
  rw [symbol, String.toList_ofList]
  exact fun h => absurd (mem_symbolChars h).1 (Nat.not_le_of_lt hc)

end Stimulus.Trace
