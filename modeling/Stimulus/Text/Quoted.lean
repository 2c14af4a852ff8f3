import Stimulus.Text.Printable
import Stimulus.Text.Surrogate

/-!
# Quoted text

The form in which a text is shown inside a message: between apostrophes, or between double quotes
when it holds an apostrophe and no double quote. The quote in use and the backslash are escaped,
and so is every code point that is not printable, by the shortest of three hexadecimal forms.
-/
namespace Stimulus.Text

/-- The digits of `n` in base sixteen, padded with zeros to at least `width`. -/
def hexDigits (width n : Nat) : List Char :=
  let digits := Nat.toDigits 16 n
  List.replicate (width - digits.length) '0' ++ digits

/-- One character inside the given quotes. -/
def quotedChar (mark c : Char) : List Char :=
  if c = mark || c = '\\' then ['\\', c]
  else if c = '\n' then ['\\', 'n']
  else if c = '\r' then ['\\', 'r']
  else if c = '\t' then ['\\', 't']
  else if isPrintable c then [c]
  else if c.toNat < 0x100 then '\\' :: 'x' :: hexDigits 2 c.toNat
  else if c.toNat < 0x10000 then '\\' :: 'u' :: hexDigits 4 c.toNat
  else '\\' :: 'U' :: hexDigits 8 c.toNat

/-- One code point inside the given quotes. A lone surrogate is not printable. -/
def quotedPoint (mark : Char) : Point → List Char
  | .char c => quotedChar mark c
  | .half i => '\\' :: 'u' :: hexDigits 4 (Point.half i).toNat

/-- The quote that a text is shown in. -/
def quoteMark (s : String) : Char :=
  if s.toList.contains '\'' && !s.toList.contains '"' then '"' else '\''

/-- A text as it is shown inside a message. -/
def quoted (s : String) : String :=
  let mark := quoteMark s
  String.ofList (mark :: (points s.toList).flatMap (quotedPoint mark) ++ [mark])

/-- Items in square brackets, separated by commas. -/
def bracketed (items : List String) : String :=
  "[" ++ ", ".intercalate items ++ "]"

end Stimulus.Text
