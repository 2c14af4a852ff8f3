/-!
# Signal symbols

The identifier codes of the signals of a value change dump: texts over the 94 printable characters
from `!` to `~`, shortest first, the first character counting fastest.
-/
namespace Stimulus.Trace

/-- The number of characters that a code is made of. -/
def symbolBase : Nat := 94

/-- The character of a digit of a code. -/
def symbolChar (digit : Nat) : Char := Char.ofNat ('!'.toNat + digit)

/-- The code of the `n`-th text, counted from one; zero is the empty text. -/
def symbolChars (n : Nat) : List Char :=
  if n = 0 then [] else symbolChar ((n - 1) % symbolBase) :: symbolChars ((n - 1) / symbolBase)
termination_by n
decreasing_by
  have := Nat.div_le_self (n - 1) symbolBase
  omega

/-- The code of signal `i`, counted from zero. -/
def symbol (i : Nat) : String := String.ofList (symbolChars (i + 1))

/-- The code at a place that may be negative; before the first code there are only empty ones. -/
def symbolAt (place : Int) : String := String.ofList (symbolChars (place + 1).toNat)

end Stimulus.Trace
