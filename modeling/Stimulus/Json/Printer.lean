import Stimulus.Json.Basic
import Stimulus.Text.Surrogate

/-!
# Writing documents

Two layouts of JSON text: everything on one line, and one item or field a line with an indentation
of two spaces a level. Only the characters from the space to the tilde are written as they are; all
others are escaped by their code units.
-/
namespace Stimulus.Json

/-- The escape of one code unit. -/
def unitEscape (n : Nat) : List Char := '\\' :: 'u' :: Text.hexDigits 4 n

/-- One character inside a string. -/
def escapedChar (c : Char) : List Char :=
  if c = '"' then ['\\', '"']
  else if c = '\\' then ['\\', '\\']
  else if c = '\n' then ['\\', 'n']
  else if c = '\r' then ['\\', 'r']
  else if c = '\t' then ['\\', 't']
  else if c.toNat = 8 then ['\\', 'b']
  else if c.toNat = 12 then ['\\', 'f']
  else if 0x20 ≤ c.toNat && c.toNat ≤ 0x7e then [c]
  else if c.toNat < 0x10000 then unitEscape c.toNat
  else
    let n := c.toNat - 0x10000
    unitEscape (0xD800 + n / 0x400) ++ unitEscape (0xDC00 + n % 0x400)

/-- One code point inside a string. -/
def escapedPoint : Text.Point → List Char
  | .char c => escapedChar c
  | .half i => unitEscape (Text.Point.half i).toNat

def escapedString (s : String) : String :=
  String.ofList ('"' :: (Text.points s.toList).flatMap escapedPoint ++ ['"'])

/-- A number with its power of ten, so that it reads back as the same fraction. -/
def fractionText : Fraction → String
  | .notANumber => "NaN"
  | .infinity negative => Fraction.signText negative ++ "Infinity"
  | .decimal x => s!"{Fraction.signText x.negative}{x.digits}e{x.exponent}"

mutual

/-- A value on one line. -/
def compact : Json → String
  | .null => "null"
  | .bool true => "true"
  | .bool false => "false"
  | .int n => toString n
  | .float x => fractionText x
  | .str s => escapedString s
  | .arr items => "[" ++ ", ".intercalate (compactItems items) ++ "]"
  | .obj fields => "\x7b" ++ ", ".intercalate (compactFields fields) ++ "\x7d"

def compactItems : List Json → List String
  | [] => []
  | item :: rest => item.compact :: compactItems rest

def compactFields : List (String × Json) → List String
  | [] => []
  | (key, value) :: rest => (escapedString key ++ ": " ++ value.compact) :: compactFields rest

end

/-- A line break and the indentation of a level. -/
def newLine (level : Nat) : String := "\n" ++ String.ofList (List.replicate (2 * level) ' ')

/-- Parts between two brackets, each on a line of its own one level further in. -/
def block (opening closing : String) (level : Nat) (parts : List String) : String :=
  if parts.isEmpty then opening ++ closing
  else
    opening ++ newLine (level + 1) ++ ("," ++ newLine (level + 1)).intercalate parts ++
      newLine level ++ closing

mutual

/-- A value over several lines, inside `level` enclosing values. -/
def indented (level : Nat) : Json → String
  | .arr items => block "[" "]" level (indentedItems (level + 1) items)
  | .obj fields => block "\x7b" "\x7d" level (indentedFields (level + 1) fields)
  | .null => "null"
  | .bool true => "true"
  | .bool false => "false"
  | .int n => toString n
  | .float x => fractionText x
  | .str s => escapedString s

def indentedItems (level : Nat) : List Json → List String
  | [] => []
  | item :: rest => item.indented level :: indentedItems level rest

def indentedFields (level : Nat) : List (String × Json) → List String
  | [] => []
  | (key, value) :: rest =>
    (escapedString key ++ ": " ++ value.indented level) :: indentedFields level rest

end

end Stimulus.Json
