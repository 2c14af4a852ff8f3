/-!
# Decimal fractions

Numbers written with a fraction or an exponent are kept as they were written: a sign, the digits
and a power of ten. The three values that are not numbers on the line are kept beside them.
-/
namespace Stimulus

/-- The number `± digits * 10 ^ exponent`. -/
structure Decimal where
  negative : Bool
  digits : Nat
  exponent : Int
  deriving DecidableEq, Repr

/-- A number of a document that is no integer. -/
inductive Fraction
  | decimal (value : Decimal)
  | infinity (negative : Bool)
  | notANumber
  deriving DecidableEq, Repr

/-- A power of ten. -/
def powerOfTen (exponent : Nat) : Nat := Nat.pow 10 exponent

end Stimulus
