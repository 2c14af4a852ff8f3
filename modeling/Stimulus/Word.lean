import Stimulus.Diagnostic

/-!
# Words

Composed expressions compute on words of 32 bits. Operands are integers of any size; a result is
wrapped modulo `2 ^ 32`. Bitwise operators see the operands' two's complement, division and
remainder round towards minus infinity, and a shift by 32 or more gives zero.
-/
namespace Stimulus.Word

def bits : Nat := 32

/-- The number of words. -/
def size : Int := 1 <<< bits

/-- The word of an integer. -/
def wrap (x : Int) : Int := x % size

theorem wrap_nonneg (x : Int) : 0 ≤ wrap x := Int.emod_nonneg x (by decide)

theorem wrap_lt (x : Int) : wrap x < size := Int.emod_lt_of_pos x (by decide)

theorem wrap_of_mem {x : Int} (h0 : 0 ≤ x) (h : x < size) : wrap x = x :=
  Int.emod_eq_of_lt h0 h

@[simp] theorem wrap_wrap (x : Int) : wrap (wrap x) = wrap x :=
  wrap_of_mem (wrap_nonneg x) (wrap_lt x)

/-- The low bits of the two's complement of an integer. -/
def ofInt (x : Int) : BitVec bits := BitVec.ofInt bits x

/-- The integer of a word without sign. -/
def toInt (w : BitVec bits) : Int := w.toNat

theorem toInt_ofInt (x : Int) : toInt (ofInt x) = wrap x := by
  rw [toInt, ofInt, BitVec.toNat_ofInt]
  exact Int.toNat_of_nonneg (wrap_nonneg x)

/-- A shift of the low word. Counts from the word size on give zero; negative counts are refused. -/
def shift (f : Int → Nat → Int) (left right : Int) : Except Failure Int :=
  if bits ≤ right then .ok 0
  else if right < 0 then .error (.fault .negativeShift)
  else .ok (wrap (f left right.toNat))

end Stimulus.Word

namespace Stimulus

open Word

def UnaryOp.apply : UnaryOp → Int → Int
  | .complement, x => wrap (-x - 1)

def BinaryOp.apply : BinaryOp → Int → Int → Except Failure Int
  | .or, l, r => .ok (toInt (ofInt l ||| ofInt r))
  | .xor, l, r => .ok (toInt (ofInt l ^^^ ofInt r))
  | .and, l, r => .ok (toInt (ofInt l &&& ofInt r))
  | .shiftLeft, l, r => shift (· <<< ·) l r
  | .shiftRight, l, r => shift (· >>> ·) l r
  | .add, l, r => .ok (wrap (l + r))
  | .sub, l, r => .ok (wrap (l - r))
  | .mul, l, r => .ok (wrap (l * r))
  | .div, l, r => if r = 0 then .error (.cause (.divisionByZero l)) else .ok (wrap (l.fdiv r))
  | .mod, l, r => if r = 0 then .error (.cause (.moduloByZero l)) else .ok (wrap (l.fmod r))

end Stimulus
