import Stimulus.Decimal.Nearest

/-!
# Shortest decimal text

The text of a binary number with the fewest decimal digits that still read back as it. For one,
two, … digits the two neighbours of the number on that decimal grid are tested, in exact integer
arithmetic, against the interval of numbers that round to it.
-/
namespace Stimulus.Decimal

/-- A fraction of two numbers, compared by cross multiplication. -/
structure Ratio where
  num : Nat
  den : Nat

namespace Ratio

def le (a b : Ratio) : Bool := a.num * b.den ≤ b.num * a.den

def lt (a b : Ratio) : Bool := a.num * b.den < b.num * a.den

/-- `digits * 10 ^ exponent` -/
def ofDecimal (digits : Nat) (exponent : Int) : Ratio :=
  let (num, den) := inDecimalUnits digits 1 (-exponent)
  ⟨num, den⟩

/-- `count` units of `2 ^ exponent` -/
def ofBinary (count : Nat) (exponent : Int) : Ratio :=
  let (num, den) := inBinaryUnits count 1 (-exponent)
  ⟨num, den⟩

end Ratio

namespace Binary

/-- A quarter of the unit of the mantissa is fine enough to name the middles between neighbours. -/
def quarters (b : Binary) (count : Nat) : Ratio := Ratio.ofBinary count (b.exponent - 2)

/-- Whether a fraction rounds to `b`. The lower neighbour of a power of two is half as far away;
the middles belong to the number with the even mantissa. -/
def isNearestTo (b : Binary) (x : Ratio) : Bool :=
  let below := if b.mantissa = mantissaBound / 2 && leastExponent < b.exponent then 1 else 2
  let lo := b.quarters (4 * b.mantissa - below)
  let hi := b.quarters (4 * b.mantissa + 2)
  if b.mantissa % 2 = 0 then lo.le x && x.le hi else lo.lt x && x.lt hi

/-- The position of the decimal point in front of the first digit: the least `p` with
`b < 10 ^ p`. All numbers are over `10 ^ -324`, so 400 places behind the point show a digit. -/
def pointPosition (b : Binary) : Int :=
  let x := b.quarters (4 * b.mantissa)
  (digitCount (x.num * powerOfTen 400 / x.den) : Int) - 400

/-- The neighbour of `b` on the grid of `10 ^ exponent` that rounds to `b`, the nearer one if both
do and the even one if both are equally near. -/
def onGrid? (b : Binary) (exponent : Int) : Option Nat :=
  let x := b.quarters (4 * b.mantissa)
  let (n, d) := inDecimalUnits x.num x.den exponent
  let low := n / d
  let fits := fun digits => b.isNearestTo (Ratio.ofDecimal digits exponent)
  match fits low, fits (low + 1) with
  | true, true => some (roundQuotient n d)
  | true, false => some low
  | false, true => some (low + 1)
  | false, false => none

/-- Tries grids of `digits` and more digits, `tries` of them. -/
def shortestFrom (b : Binary) (point : Int) : (digits tries : Nat) → Nat × Int
  | _, 0 => (0, 0)
  | digits, tries + 1 =>
    let exponent := point - digits
    match b.onGrid? exponent with
    | some found => (found, exponent)
    | none => shortestFrom b point (digits + 1) tries

/-- The digits and the power of ten of the shortest decimal that reads back as `b`. Seventeen
digits always do. -/
def shortest (b : Binary) : Nat × Int := b.shortestFrom b.pointPosition 1 17

end Binary

/-- Digits of a number without the zeros at its end. -/
def significantDigits (n : Nat) : List Char :=
  ((Nat.toDigits 10 n).reverse.dropWhile (· == '0')).reverse

/-- Positional text where the point stands at most three places before the first digit and at most
sixteen behind it, and otherwise a power of ten of at least two digits. -/
def layout (digits : List Char) (point : Int) : List Char :=
  if -4 < point && point ≤ 16 then
    if point ≤ 0 then '0' :: '.' :: (List.replicate point.natAbs '0' ++ digits)
    else if point.toNat < digits.length then
      digits.take point.toNat ++ '.' :: digits.drop point.toNat
    else digits ++ List.replicate (point.toNat - digits.length) '0' ++ ['.', '0']
  else
    let power := point - 1
    let size := Nat.toDigits 10 power.natAbs
    let lead := digits.take 1
    let rest := digits.drop 1
    lead ++ (if rest.isEmpty then [] else '.' :: rest) ++ 'e' :: (if power < 0 then '-' else '+') ::
      (if size.length < 2 then '0' :: size else size)

/-- The text of a nonnegative binary number. -/
def Binary.text (b : Binary) : List Char :=
  if b.mantissa = 0 then ['0', '.', '0']
  else
    let (digits, exponent) := b.shortest
    layout (significantDigits digits) (exponent + digitCount digits)

end Stimulus.Decimal

namespace Stimulus.Fraction

def signText (negative : Bool) : String := if negative then "-" else ""

/-- The shortest text that reads back as the binary number nearest to the fraction. -/
def text : Fraction → String
  | .notANumber => "nan"
  | .infinity negative => signText negative ++ "inf"
  | .decimal x =>
    match x.nearest? with
    | none => signText x.negative ++ "inf"
    | some b => signText x.negative ++ String.ofList b.text

end Stimulus.Fraction
