import Stimulus.Decimal.Basic

/-!
# The nearest binary fraction

Rounds a nonnegative decimal fraction to the nearest number of the form `mantissa * 2 ^ exponent`
with a mantissa of 53 bits and an exponent between -1074 and 971, ties to the even mantissa.
-/
namespace Stimulus.Decimal

/-- The quotient rounded to the nearest integer, ties to the even one. -/
def roundQuotient (num den : Nat) : Nat :=
  let q := num / den
  let r := num % den
  if 2 * r < den then q
  else if den < 2 * r then q + 1
  else if q % 2 = 0 then q else q + 1

/-- A nonnegative number with 53 binary digits of precision. -/
structure Binary where
  mantissa : Nat
  exponent : Int
  deriving DecidableEq, Repr

namespace Binary

def leastExponent : Int := -1074

def greatestExponent : Int := 971

/-- The mantissa from which on a number takes the next exponent. -/
def mantissaBound : Nat := 1 <<< 53

end Binary

/-- The fraction `num / den` counted in units of `2 ^ exponent`. -/
def inBinaryUnits (num den : Nat) (exponent : Int) : Nat × Nat :=
  if exponent < 0 then (num <<< exponent.natAbs, den) else (num, den <<< exponent.natAbs)

/-- The fraction `num / den` counted in units of `10 ^ exponent`. -/
def inDecimalUnits (num den : Nat) (exponent : Int) : Nat × Nat :=
  let power := powerOfTen exponent.natAbs
  if exponent < 0 then (num * power, den) else (num, den * power)

/-- The binary exponent at which `num / den` has a mantissa of 53 bits, or the least exponent. -/
def binaryExponent (num den : Nat) : Int :=
  let guess : Int := (Nat.log2 num : Int) - Nat.log2 den - 53
  let (n, d) := inBinaryUnits num den guess
  let fitted := if Binary.mantissaBound * d ≤ n then guess + 1 else guess
  max fitted Binary.leastExponent

/-- The nearest binary number, or `none` where it exceeds the greatest. -/
def nearestRatio? (num den : Nat) : Option Binary :=
  let exponent := binaryExponent num den
  let (n, d) := inBinaryUnits num den exponent
  let mantissa := roundQuotient n d
  let rounded : Binary :=
    if mantissa = Binary.mantissaBound then ⟨mantissa / 2, exponent + 1⟩ else ⟨mantissa, exponent⟩
  if Binary.greatestExponent < rounded.exponent then none else some rounded

/-- The number of decimal digits of a number. -/
def digitCount (n : Nat) : Nat := (Nat.toDigits 10 n).length

/-- The binary number nearest to the size of a decimal fraction, or `none` where it exceeds the
greatest. Numbers of 310 and more digits before the point are over it, and numbers with 330 zeros
behind the point are nearest to zero, so no larger power of ten is ever computed. -/
def nearest? (x : Decimal) : Option Binary :=
  let magnitude := x.exponent + digitCount x.digits
  if x.digits = 0 || magnitude < -330 then some ⟨0, Binary.leastExponent⟩
  else if 310 < magnitude then none
  else
    let (num, den) := inDecimalUnits x.digits 1 (-x.exponent)
    nearestRatio? num den

end Stimulus.Decimal
