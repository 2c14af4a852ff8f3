import Stimulus.Text.Blank
import Stimulus.Text.DecimalDigit
import Stimulus.Text.Quoted

/-!
# Numerals

Integers as a user writes them, in plain decimal or with a base mark (`0x`, `0o`, `0b`), and the
binary and hexadecimal words of trace files. Digits may be grouped by single underscores, and
decimal digits of any script count as digits. A decimal numeral has a greatest length.
-/
namespace Stimulus.Text.Numeral

/-- The value of a digit or letter as a digit of a base up to 36. -/
def digit? (c : Char) : Option Nat :=
  if c.isDigit then some (c.toNat - '0'.toNat)
  else if c.isLower then some (c.toNat - 'a'.toNat + 10)
  else if c.isUpper then some (c.toNat - 'A'.toNat + 10)
  else none

/-- Turns other scripts' digits and blanks into plain characters; any other character outside the
first 128 becomes one that no numeral holds. -/
def plainChar (c : Char) : Char :=
  if c.toNat < 0x80 then c
  else if isBlank c then ' '
  else match decimalDigit? c with
    | some d => Char.ofNat ('0'.toNat + d)
    | none => '?'

/-- Reads the rest of a digit group after a first digit: digits of the base, each optionally
preceded by one underscore, to the end of the text. -/
def digitsAfter (base : Nat) (value : Nat) : List Char → Option Nat
  | [] => some value
  | '_' :: c :: cs => (digit? c).bind fun d =>
      if d < base then digitsAfter base (value * base + d) cs else none
  | c :: cs => (digit? c).bind fun d =>
      if d < base then digitsAfter base (value * base + d) cs else none

/-- Reads a nonempty run of digits that starts with a digit. -/
def digits? (base : Nat) : List Char → Option Nat
  | [] => none
  | c :: cs => (digit? c).bind fun d => if d < base then digitsAfter base d cs else none

/-- The most digits that a decimal numeral may have. -/
def mostDigits : Nat := 4300

/-- The number of decimal digits of an integer. -/
def digitCount (n : Int) : Nat := (Nat.toDigits 10 n.natAbs).length

/-- Whether the decimal numeral of an integer may be written. -/
def isWritable (n : Int) : Bool := digitCount n ≤ mostDigits

/-- Reads a run of decimal digits that is not too long. -/
def decimalDigits? (cs : List Char) : Option Nat :=
  if (cs.filter (· != '_')).length ≤ mostDigits then digits? 10 cs else none

/-- Reads the digits behind a base mark, which one underscore may separate from it. -/
def markedDigits? (base : Nat) : List Char → Option Nat
  | '_' :: cs => digits? base cs
  | cs => digits? base cs

/-- Reads an unsigned numeral whose base is told by its mark. Without a mark it is decimal, and
then a leading zero is allowed only where the number is zero. -/
def unsignedMarked? : List Char → Option Nat
  | '0' :: c :: cs =>
    if c = 'x' || c = 'X' then markedDigits? 16 cs
    else if c = 'o' || c = 'O' then markedDigits? 8 cs
    else if c = 'b' || c = 'B' then markedDigits? 2 cs
    else (decimalDigits? ('0' :: c :: cs)).filter (· == 0)
  | cs => decimalDigits? cs

/-- Reads an optional sign and then a number. -/
def signed? (unsigned : List Char → Option Nat) : List Char → Option Int
  | '-' :: cs => (unsigned cs).map fun n => -(n : Int)
  | '+' :: cs => (unsigned cs).map fun n => (n : Int)
  | cs => (unsigned cs).map fun n => (n : Int)

/-- The characters of a numeral: plain, and without the blanks around them. -/
def plainChars (s : String) : List Char :=
  trimBoth isPlainBlank (s.toList.map plainChar)

/-- Reads a decimal integer. -/
def decimal? (s : String) : Option Int := signed? decimalDigits? (plainChars s)

/-- Reads an integer in decimal or with a base mark. -/
def marked? (s : String) : Option Int := signed? unsignedMarked? (plainChars s)

/-- The shortest binary form of a number. -/
def binary (n : Nat) : String := String.ofList (Nat.toDigits 2 n)

/-- The hexadecimal form of a number with at least eight digits. -/
def hexWord (n : Nat) : String := String.ofList (hexDigits 8 n)

end Stimulus.Text.Numeral
