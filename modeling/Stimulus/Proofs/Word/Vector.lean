import Mathlib.Data.Int.Basic
import Stimulus.Word

/-!
# Operators on bit vectors

What the operators mean on words: sums, differences and products go round, shifts move zeros in, and
division is without sign. On the integers of words an operator computes what it means. The ring and
bitwise operators do so on all integers, for these see nothing but the words of their operands.
-/
namespace Stimulus

open Word

namespace Word

theorem toInt_nonneg (a : BitVec bits) : 0 ≤ toInt a := Int.natCast_nonneg _

theorem toInt_lt (a : BitVec bits) : toInt a < size := by
  have hlt : a.toNat < 2 ^ bits := a.isLt
  have hsize : size = ((2 ^ bits : Nat) : Int) := rfl
  rw [toInt, hsize]
  exact_mod_cast hlt

@[simp] theorem ofInt_toInt (a : BitVec bits) : ofInt (toInt a) = a := by
  rw [ofInt, toInt, BitVec.ofInt_natCast, BitVec.ofNat_toNat, BitVec.setWidth_eq]

theorem toInt_ofInt_of_mem {x : Int} (h0 : 0 ≤ x) (h : x < size) : toInt (ofInt x) = x := by
  rw [toInt_ofInt, wrap_of_mem h0 h]

theorem wrap_toInt (a : BitVec bits) : wrap (toInt a) = toInt a :=
  wrap_of_mem (toInt_nonneg a) (toInt_lt a)

@[simp] theorem ofInt_wrap (x : Int) : ofInt (wrap x) = ofInt x := by
  rw [← toInt_ofInt, ofInt_toInt]

theorem toInt_eq_zero_iff {a : BitVec bits} : toInt a = 0 ↔ a = 0 := by
  rw [toInt, Int.natCast_eq_zero]
  exact ⟨fun h => BitVec.eq_of_toNat_eq h, fun h => h ▸ rfl⟩

theorem wrap_shiftLeft_toInt (a : BitVec bits) (k : Nat) :
    wrap (toInt a <<< k) = toInt (a <<< k) := by
  have hproduct : toInt (a <<< k) = ((a.toNat * 2 ^ k % 2 ^ bits : Nat) : Int) := by
    rw [toInt, BitVec.toNat_shiftLeft, Nat.shiftLeft_eq]
  rw [hproduct, Int.shiftLeft_eq, toInt]
  push_cast
  rfl

theorem shiftRight_toInt (a : BitVec bits) (k : Nat) : toInt a >>> k = toInt (a >>> k) := by
  rw [toInt, toInt, BitVec.toNat_ushiftRight, ← Int.natCast_shiftRight]

theorem div_toInt (a b : BitVec bits) : toInt a / toInt b = toInt (a / b) := by
  rw [toInt, toInt, toInt, BitVec.toNat_udiv, Int.natCast_ediv]

theorem mod_toInt (a b : BitVec bits) : toInt a % toInt b = toInt (a % b) := by
  rw [toInt, toInt, toInt, BitVec.toNat_umod, Int.natCast_emod]

/-- A shift of a word by a word. -/
theorem shift_toInt {f : Int → Nat → Int} {g : BitVec bits → Nat → BitVec bits}
    (hf : ∀ a k, wrap (f (toInt a) k) = toInt (g a k)) (hg : ∀ a k, bits ≤ k → g a k = 0)
    (a b : BitVec bits) : shift f (toInt a) (toInt b) = .ok (toInt (g a b.toNat)) := by
  have hnonneg := toInt_nonneg b
  unfold shift
  by_cases hcount : (bits : Int) ≤ toInt b
  · have hbits : bits ≤ b.toNat := Int.ofNat_le.mp hcount
    rw [if_pos hcount, hg a b.toNat hbits]
    rfl
  · rw [if_neg hcount, if_neg (by omega), hf]
    rfl

end Word

/-- The operator on words. -/
def UnaryOp.onWord : UnaryOp → BitVec bits → BitVec bits
  | .complement, a => ~~~a

theorem UnaryOp.apply_eq (op : UnaryOp) (x : Int) : op.apply x = toInt (op.onWord (ofInt x)) := by
  cases op with
  | complement =>
    have hnot : ~~~ofInt x = ofInt (-x - 1) := by
      rw [ofInt, ofInt, BitVec.not_eq_neg_add, Int.sub_eq_add_neg, BitVec.ofInt_add,
        BitVec.ofInt_neg, BitVec.sub_eq_add_neg]
      rfl
    rw [apply, onWord, hnot, toInt_ofInt]

namespace BinaryOp

/-- The operator on words. -/
def onWords : BinaryOp → BitVec bits → BitVec bits → BitVec bits
  | or, a, b => a ||| b
  | xor, a, b => a ^^^ b
  | and, a, b => a &&& b
  | shiftLeft, a, b => a <<< b
  | shiftRight, a, b => a >>> b
  | add, a, b => a + b
  | sub, a, b => a - b
  | mul, a, b => a * b
  | div, a, b => a / b
  | mod, a, b => a % b

/-- Whether an operator divides, so that it has no result for a divisor of zero. -/
def divides : BinaryOp → Bool
  | div | mod => true
  | _ => false

/-- Whether an operator is bitwise or one of the ring of words. -/
def isRing : BinaryOp → Bool
  | or | xor | and | add | sub | mul => true
  | _ => false

/-- The ring and bitwise operators see the words of their operands. -/
theorem apply_of_isRing {op : BinaryOp} (h : op.isRing = true) (l r : Int) :
    op.apply l r = .ok (toInt (op.onWords (ofInt l) (ofInt r))) := by
  cases op with
  | or | xor | and => rfl
  | add => rw [apply, onWords, ← toInt_ofInt, ofInt, BitVec.ofInt_add]; rfl
  | sub =>
    rw [apply, onWords, ← toInt_ofInt, ofInt, Int.sub_eq_add_neg, BitVec.ofInt_add,
      BitVec.ofInt_neg, ← BitVec.sub_eq_add_neg]
    rfl
  | mul => rw [apply, onWords, ← toInt_ofInt, ofInt, BitVec.ofInt_mul]; rfl
  | shiftLeft | shiftRight | div | mod => cases h

/-- On the integers of words every operator computes what it means on words. -/
theorem apply_toInt {op : BinaryOp} {a b : BitVec bits} (h : op.divides = true → b ≠ 0) :
    op.apply (toInt a) (toInt b) = .ok (toInt (op.onWords a b)) := by
  by_cases hring : op.isRing = true
  · rw [apply_of_isRing hring, ofInt_toInt, ofInt_toInt]
  cases op with
  | shiftLeft =>
    exact shift_toInt wrap_shiftLeft_toInt (fun a k hk => BitVec.shiftLeft_eq_zero hk) a b
  | shiftRight =>
    have hshift (a : BitVec bits) (k : Nat) : wrap (toInt a >>> k) = toInt (a >>> k) := by
      rw [shiftRight_toInt, wrap_toInt]
    exact shift_toInt hshift (fun a k hk => BitVec.ushiftRight_eq_zero hk) a b
  | div =>
    have hb : toInt b ≠ 0 := mt toInt_eq_zero_iff.mp (h rfl)
    rw [apply, if_neg hb, Int.fdiv_eq_ediv_of_nonneg _ (toInt_nonneg b), div_toInt, wrap_toInt]
    rfl
  | mod =>
    have hb : toInt b ≠ 0 := mt toInt_eq_zero_iff.mp (h rfl)
    rw [apply, if_neg hb, Int.fmod_eq_emod_of_nonneg _ (toInt_nonneg b), mod_toInt, wrap_toInt]
    rfl
  | or | xor | and | add | sub | mul => exact absurd rfl hring

/-- A divisor of zero is the cause of an error. -/
theorem apply_zero {op : BinaryOp} (h : op.divides = true) (l : Int) :
    ∃ cause, op.apply l 0 = .error (.cause cause) ∧ cause.kind = .arithmetic := by
  cases op with
  | div | mod => exact ⟨_, rfl, rfl⟩
  | or | xor | and | shiftLeft | shiftRight | add | sub | mul => cases h

end BinaryOp

end Stimulus
