/-!
# White space

Two sets of blanks: the plain ones of the first 128 characters that may surround a number, and all
characters that count as white space in text. Trimming removes a set from both ends.
-/
namespace Stimulus.Text

/-- The blanks that may surround a number: space, tab, line feed, line tabulation, form feed and
carriage return. -/
def isPlainBlank (c : Char) : Bool :=
  c.toNat = 0x20 || (0x09 ≤ c.toNat && c.toNat ≤ 0x0d)

/-- White space in text: the plain blanks, the four information separators, the next-line
control, and every space, line or paragraph separator. -/
def isBlank (c : Char) : Bool :=
  isPlainBlank c || (0x1c ≤ c.toNat && c.toNat ≤ 0x1f) || c.toNat = 0x85 || c.toNat = 0xa0 ||
    c.toNat = 0x1680 || (0x2000 ≤ c.toNat && c.toNat ≤ 0x200a) || c.toNat = 0x2028 ||
    c.toNat = 0x2029 || c.toNat = 0x202f || c.toNat = 0x205f || c.toNat = 0x3000

/-- Removes the characters of a set from both ends. -/
def trimBoth (p : Char → Bool) (cs : List Char) : List Char :=
  ((cs.dropWhile p).reverse.dropWhile p).reverse

/-- A text without the white space around it. -/
def strip (s : String) : String := String.ofList (trimBoth isBlank s.toList)

end Stimulus.Text
