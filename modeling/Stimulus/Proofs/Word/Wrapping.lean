import Mathlib.Data.Int.ModEq
import Mathlib.Tactic.LinearCombination
import Mathlib.Tactic.Ring
import Stimulus.Proofs.Word.Vector

/-!
# Operands beyond the words

An operand can be any integer, but only results are wrapped. Wrapping the operands first makes no
difference to the ring and bitwise operators. Shifts and divisions look at the whole operands, and
so it does make one to them: a count below zero is refused and one from the word size on gives zero,
and a quotient takes in what its dividend has above the words.
-/
namespace Stimulus

open Word

namespace Word

/-- An integer is its word and a multiple of the number of words. -/
theorem size_mul_add_wrap (x : Int) : size * (x / size) + wrap x = x := Int.mul_ediv_add_emod x size

theorem wrap_eq_wrap_iff {x y : Int} : wrap x = wrap y ↔ size ∣ y - x := Int.modEq_iff_dvd

theorem wrap_eq_zero_iff {x : Int} : wrap x = 0 ↔ size ∣ x := Int.dvd_iff_emod_eq_zero.symm

theorem wrap_wrap_ediv (l : Int) {r : Int} (h : 0 ≤ r) : wrap (wrap l / r) = wrap l / r := by
  have hle : wrap l / r ≤ wrap l := Int.ediv_le_self r (wrap_nonneg l)
  exact wrap_of_mem (Int.ediv_nonneg (wrap_nonneg l) h) (hle.trans_lt (wrap_lt l))

/-- The quotient by a divisor among the words is that of the word exactly if the divisor divides
what lies above the word. -/
theorem wrap_ediv_iff {l r : Int} (hpos : 0 < r) (hlt : r < size) :
    wrap (l / r) = wrap l / r ↔ r ∣ l / size := by
  have hsize : 0 < size := hpos.trans hlt
  have hl := size_mul_add_wrap l
  constructor
  · intro h
    -- The quotients differ by a multiple of the words, so the remainders do not differ at all.
    have hquotient := size_mul_add_wrap (l / r)
    rw [h] at hquotient
    have hword := Int.mul_ediv_add_emod (wrap l) r
    have hwhole := Int.mul_ediv_add_emod l r
    have hdiff : size * (l / size - r * (l / r / size)) = l % r - wrap l % r := by
      linear_combination hl - hwhole + hword - r * hquotient
    have hremainders : l % r - wrap l % r = 0 := by
      refine Int.eq_zero_of_abs_lt_dvd ⟨_, hdiff.symm⟩ ?_
      have h1 := Int.emod_nonneg l hpos.ne'
      have h2 := Int.emod_lt_of_pos l hpos
      have h3 := Int.emod_nonneg (wrap l) hpos.ne'
      have h4 := Int.emod_lt_of_pos (wrap l) hpos
      rw [abs_lt]
      omega
    rw [hremainders] at hdiff
    have habove := (Int.mul_eq_zero.mp hdiff).resolve_left hsize.ne'
    exact ⟨l / r / size, by omega⟩
  · rintro ⟨m, hm⟩
    have hwhole : l = wrap l + r * (size * m) := by
      rw [hm] at hl
      linear_combination -hl
    have hquotient : l / r = wrap l / r + size * m := by
      conv_lhs => rw [hwhole]
      exact Int.add_mul_ediv_left _ _ hpos.ne'
    rw [← wrap_wrap_ediv l hpos.le, wrap_eq_wrap_iff, hquotient]
    exact ⟨-m, by ring⟩

theorem wrap_wrap_emod (l : Int) {r : Int} (h : 0 ≤ r) : wrap (wrap l % r) = wrap l % r := by
  have hle : wrap l % r ≤ wrap l := by
    have hpart := Int.mul_nonneg h (Int.ediv_nonneg (wrap_nonneg l) h)
    have hsum := Int.mul_ediv_add_emod (wrap l) r
    omega
  by_cases hzero : r = 0
  · rw [hzero, Int.emod_zero, wrap_wrap]
  · exact wrap_of_mem (Int.emod_nonneg _ hzero) (hle.trans_lt (wrap_lt l))

/-- The remainder by a divisor among the words is that of the word exactly if the divisor divides
the difference between the two. -/
theorem wrap_emod_iff {l r : Int} (hpos : 0 < r) (hlt : r < size) :
    wrap (l % r) = wrap l % r ↔ r ∣ size * (l / size) := by
  have hword : wrap (l % r) = l % r :=
    wrap_of_mem (Int.emod_nonneg l hpos.ne') ((Int.emod_lt_of_pos l hpos).trans hlt)
  have hl := size_mul_add_wrap l
  have hdiff : size * (l / size) = l - wrap l := by omega
  rw [hword, hdiff]
  exact eq_comm.trans Int.modEq_iff_dvd

/-! ## Shifts -/

variable {f : Int → Nat → Int}

theorem shift_of_neg {l r : Int} (h : r < 0) : shift f l r = .error (.fault .negativeShift) := by
  have hcount : ¬(bits : Int) ≤ r := by omega
  rw [shift, if_neg hcount, if_pos h]

theorem shift_of_le {l r : Int} (h : bits ≤ r) : shift f l r = .ok 0 := if_pos h

theorem shift_of_lt {l r : Int} (h0 : 0 ≤ r) (h : r < bits) :
    shift f l r = .ok (wrap (f l r.toNat)) := by
  rw [shift, if_neg (by omega), if_neg (by omega)]

/-- A shift is that of the words exactly if its count is not negative, and it shifts the word to the
same word, or, where it gives zero for its count, the word of the count shifts to zero too. -/
theorem shift_eq_shift_wrap_iff {l r : Int} :
    shift f l r = shift f (wrap l) (wrap r) ↔
      0 ≤ r ∧ (r < bits → wrap (f l r.toNat) = wrap (f (wrap l) r.toNat)) ∧
        (bits ≤ r → wrap r < bits → wrap (f (wrap l) (wrap r).toNat) = 0) := by
  have hcount := wrap_nonneg r
  by_cases hneg : r < 0
  · -- The word of the count is not negative, so the other shift is not refused.
    rw [shift_of_neg hneg]
    refine iff_of_false ?_ (by omega)
    by_cases hle : bits ≤ wrap r
    · rw [shift_of_le hle]
      exact nofun
    · rw [shift_of_lt hcount (by omega)]
      exact nofun
  by_cases hsmall : r < bits
  · have hsize : (bits : Int) < size := by decide
    have hword : wrap r = r := wrap_of_mem (by omega) (by omega)
    rw [hword, shift_of_lt (by omega) hsmall, shift_of_lt (by omega) hsmall, Except.ok.injEq]
    constructor
    · exact fun h => ⟨by omega, fun _ => h, fun hlarge => by omega⟩
    · exact fun h => h.2.1 hsmall
  · rw [shift_of_le (by omega)]
    by_cases hle : bits ≤ wrap r
    · rw [shift_of_le hle]
      exact iff_of_true rfl ⟨by omega, fun h => by omega, fun _ h => by omega⟩
    · rw [shift_of_lt hcount (by omega), Except.ok.injEq]
      constructor
      · exact fun h => ⟨by omega, fun h => by omega, fun _ _ => h.symm⟩
      · exact fun h => (h.2.2 (by omega) (by omega)).symm

/-- Shifts of an integer to the left have the same words as those of its word. -/
theorem wrap_shiftLeft_wrap (x : Int) (k : Nat) : wrap (wrap x <<< k) = wrap (x <<< k) := by
  have hx := size_mul_add_wrap x
  rw [wrap_eq_wrap_iff, Int.shiftLeft_eq, Int.shiftLeft_eq]
  exact ⟨x / size * 2 ^ k, by linear_combination (-(2 : Int) ^ k) * hx⟩

end Word

namespace BinaryOp

/-- Whether the outcome of an operator is that of the words of its operands. -/
def SeesWords (op : BinaryOp) (l r : Int) : Prop := op.apply l r = op.apply (wrap l) (wrap r)

theorem seesWords_of_isRing {op : BinaryOp} (h : op.isRing = true) (l r : Int) :
    op.SeesWords l r := by
  rw [SeesWords, apply_of_isRing h, apply_of_isRing h, ofInt_wrap, ofInt_wrap]

/-- A shift to the left sees the words of its operands unless its count is negative, or beyond the
word size while the word of the count leaves some bits of the operand. -/
theorem seesWords_shiftLeft_iff {l r : Int} :
    shiftLeft.SeesWords l r ↔ 0 ≤ r ∧ (bits ≤ r → size ∣ l * 2 ^ (wrap r).toNat) := by
  have hzero (k : Nat) : wrap (wrap l <<< k) = 0 ↔ size ∣ l * 2 ^ k := by
    rw [wrap_shiftLeft_wrap, wrap_eq_zero_iff, Int.shiftLeft_eq]
  rw [SeesWords, apply, apply, shift_eq_shift_wrap_iff]
  constructor
  · rintro ⟨h0, -, hlarge⟩
    refine ⟨h0, fun hle => ?_⟩
    by_cases hsmall : wrap r < bits
    · exact (hzero _).mp (hlarge hle hsmall)
    · have hcount : bits ≤ (wrap r).toNat := by omega
      have hpow : size ∣ 2 ^ (wrap r).toNat := pow_dvd_pow 2 hcount
      exact hpow.mul_left l
  · rintro ⟨h0, hlarge⟩
    exact ⟨h0, fun _ => (wrap_shiftLeft_wrap l _).symm, fun hle _ => (hzero _).mpr (hlarge hle)⟩

/-- A shift to the right sees the words of its operands unless its count is negative, or moves bits
from above the word into it, or is beyond the word size while the word of the count leaves some bits
of the word. -/
theorem seesWords_shiftRight_iff {l r : Int} :
    shiftRight.SeesWords l r ↔
      0 ≤ r ∧ (r < bits → 2 ^ r.toNat ∣ l / size) ∧ (bits ≤ r → wrap l < 2 ^ (wrap r).toNat) := by
  have hnonneg := wrap_nonneg l
  have hpos (k : Nat) : (0 : Int) < 2 ^ k := Int.pow_pos (by decide)
  have hshift (x : Int) (k : Nat) : x >>> k = x / 2 ^ k := by
    rw [Int.shiftRight_eq_div_pow]
    norm_cast
  have hword (k : Nat) : wrap (wrap l >>> k) = wrap l / 2 ^ k := by
    rw [hshift, wrap_wrap_ediv l (hpos k).le]
  have hzero (k : Nat) : wrap (wrap l >>> k) = 0 ↔ wrap l < 2 ^ k := by
    rw [hword]
    exact ⟨fun h => by simpa [h] using Int.lt_mul_ediv_self_add (x := wrap l) (hpos k),
      Int.ediv_eq_zero_of_lt hnonneg⟩
  have hsame (h0 : 0 ≤ r) (h : r < bits) :
      wrap (l >>> r.toNat) = wrap (wrap l >>> r.toNat) ↔ 2 ^ r.toNat ∣ l / size := by
    have hcount : r.toNat < bits := by omega
    have hlt : (2 : Int) ^ r.toNat < size := pow_lt_pow_right₀ (by decide) hcount
    rw [hword, hshift, wrap_ediv_iff (hpos _) hlt]
  rw [SeesWords, apply, apply, shift_eq_shift_wrap_iff]
  constructor
  · rintro ⟨h0, hsmall, hlarge⟩
    refine ⟨h0, fun h => (hsame h0 h).mp (hsmall h), fun hle => ?_⟩
    by_cases hcount : wrap r < bits
    · exact (hzero _).mp (hlarge hle hcount)
    · have hpow : size ≤ 2 ^ (wrap r).toNat :=
        pow_le_pow_right₀ (a := (2 : Int)) (by decide) (by omega : bits ≤ (wrap r).toNat)
      exact (wrap_lt l).trans_le hpow
  · rintro ⟨h0, hsmall, hlarge⟩
    exact ⟨h0, fun h => (hsame h0 h).mpr (hsmall h), fun hle _ => (hzero _).mpr (hlarge hle)⟩

/-! ## Divisions -/

/-- A division sees the words of its operands if it is not one by zero for only one of the divisors,
and gives the same word. The error of a division by zero tells the whole dividend. -/
theorem seesWords_divide_iff {op : BinaryOp} {f : Int → Int → Int} (cause : Int → EvaluationCause)
    (hop : ∀ l r, op.apply l r =
      if r = 0 then .error (.cause (cause l)) else .ok (wrap (f l r)))
    (hcause : Function.Injective cause) {l r : Int} :
    op.SeesWords l r ↔
      if r = 0 then wrap l = l
      else wrap r ≠ 0 ∧ wrap (f l r) = wrap (f (wrap l) (wrap r)) := by
  rw [SeesWords, hop, hop]
  by_cases hzero : r = 0
  · have hword : wrap r = 0 := by rw [hzero]; rfl
    rw [if_pos hzero, if_pos hword, if_pos hzero, Except.error.injEq, Failure.cause.injEq,
      hcause.eq_iff]
    exact eq_comm
  · rw [if_neg hzero, if_neg hzero]
    by_cases hword : wrap r = 0
    · rw [if_pos hword]
      exact iff_of_false nofun fun h => h.1 hword
    · rw [if_neg hword, Except.ok.injEq]
      exact ⟨fun h => ⟨hword, h⟩, fun h => h.2⟩

theorem seesWords_div_iff {l r : Int} :
    div.SeesWords l r ↔
      if r = 0 then wrap l = l
      else if wrap r = r then r ∣ l / size
      else wrap r ≠ 0 ∧ wrap (l.fdiv r) = wrap l / wrap r := by
  have hnonneg := wrap_nonneg r
  rw [seesWords_divide_iff .divisionByZero (fun _ _ => rfl) fun _ _ h => by cases h; rfl,
    Int.fdiv_eq_ediv_of_nonneg _ hnonneg, wrap_wrap_ediv l hnonneg]
  by_cases hzero : r = 0
  · rw [if_pos hzero, if_pos hzero]
  rw [if_neg hzero, if_neg hzero]
  by_cases hword : wrap r = r
  · rw [if_pos hword, hword]
    have hpos : 0 < r := by omega
    rw [Int.fdiv_eq_ediv_of_nonneg _ hpos.le, wrap_ediv_iff hpos (hword ▸ wrap_lt r)]
    exact and_iff_right hzero
  · rw [if_neg hword]

theorem seesWords_mod_iff {l r : Int} :
    mod.SeesWords l r ↔
      if r = 0 then wrap l = l
      else if wrap r = r then r ∣ size * (l / size)
      else wrap r ≠ 0 ∧ wrap (l.fmod r) = wrap l % wrap r := by
  have hnonneg := wrap_nonneg r
  rw [seesWords_divide_iff .moduloByZero (fun _ _ => rfl) fun _ _ h => by cases h; rfl,
    Int.fmod_eq_emod_of_nonneg _ hnonneg, wrap_wrap_emod l hnonneg]
  by_cases hzero : r = 0
  · rw [if_pos hzero, if_pos hzero]
  rw [if_neg hzero, if_neg hzero]
  by_cases hword : wrap r = r
  · rw [if_pos hword, hword]
    have hpos : 0 < r := by omega
    rw [Int.fmod_eq_emod_of_nonneg _ hpos.le, wrap_emod_iff hpos (hword ▸ wrap_lt r)]
    exact and_iff_right hzero
  · rw [if_neg hword]

/-- Which operators see nothing but the words of their operands, and when the others do. The ring
and bitwise operators always do. A shift does unless its count is negative, which is refused, or is
beyond the word size, which gives zero, while the word of the count does not; and a shift to the
right only if no bits move into the word from above it. A division by a word does if the divisor
divides what lies above the word of the dividend, and one by zero tells the whole dividend. -/
theorem seesWords_iff (l r : Int) :
    (∀ op : BinaryOp, op.isRing = true → op.SeesWords l r) ∧
    (shiftLeft.SeesWords l r ↔ 0 ≤ r ∧ (bits ≤ r → size ∣ l * 2 ^ (wrap r).toNat)) ∧
    (shiftRight.SeesWords l r ↔
      0 ≤ r ∧ (r < bits → 2 ^ r.toNat ∣ l / size) ∧ (bits ≤ r → wrap l < 2 ^ (wrap r).toNat)) ∧
    (div.SeesWords l r ↔
      if r = 0 then wrap l = l
      else if wrap r = r then r ∣ l / size
      else wrap r ≠ 0 ∧ wrap (l.fdiv r) = wrap l / wrap r) ∧
    (mod.SeesWords l r ↔
      if r = 0 then wrap l = l
      else if wrap r = r then r ∣ size * (l / size)
      else wrap r ≠ 0 ∧ wrap (l.fmod r) = wrap l % wrap r) :=
  ⟨fun _ h => seesWords_of_isRing h l r, seesWords_shiftLeft_iff, seesWords_shiftRight_iff,
    seesWords_div_iff, seesWords_mod_iff⟩

/-- A shift of a negative operand to the right moves ones into the word. -/
theorem shiftRight_not_seesWords :
    shiftRight.apply (-4) 1 = .ok 4294967294 ∧
      shiftRight.apply (wrap (-4)) (wrap 1) = .ok 2147483646 ∧ ¬shiftRight.SeesWords (-4) 1 := by
  refine ⟨rfl, rfl, fun h => ?_⟩
  have hvalues : (4294967294 : Int) = 2147483646 := Except.ok.inj h
  exact absurd hvalues (by decide)

end BinaryOp

end Stimulus
