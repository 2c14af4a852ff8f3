import Stimulus.Json.Basic
import Stimulus.Text.Numeral
import Stimulus.Text.Surrogate

/-!
# Reading documents

A reader of JSON text. When a text is refused, the first problem is reported with its place,
counted in code points. Besides the standard it accepts the words for infinity and for the value
that is not a number, and in a string a half of a surrogate pair without the other half. The text
and the strings that are read from it are in the written form of lone surrogates. An integer has
no more digits than a decimal numeral may have.
-/
namespace Stimulus.Json

/-- Why a text is no document. -/
inductive Flaw
  | noValue
  | noName
  | noColon
  | noComma
  | trailingText
  | openString
  | controlCharacter
  | badEscape
  | badCodePoint
  | longNumeral (digits : Nat)
  | byteOrderMark
  deriving DecidableEq, Repr

namespace Flaw

def message : Flaw → String
  | noValue => "Expecting value"
  | noName => "Expecting property name enclosed in double quotes"
  | noColon => "Expecting ':' delimiter"
  | noComma => "Expecting ',' delimiter"
  | trailingText => "Extra data"
  | openString => "Unterminated string starting at"
  | controlCharacter => "Invalid control character at"
  | badEscape => "Invalid \\escape"
  | badCodePoint => "Invalid \\uXXXX escape"
  | longNumeral digits => s!"Numeral of {digits} digits"
  | byteOrderMark => "Unexpected UTF-8 BOM (decode using utf-8-sig)"

end Flaw

/-- A flaw and the text from its place on. -/
structure Stop where
  flaw : Flaw
  rest : List Char

abbrev Read (α : Type) := Except Stop (α × List Char)

def isSpace (c : Char) : Bool := c = ' ' || c = '\t' || c = '\n' || c = '\r'

def skipSpace (s : List Char) : List Char := s.dropWhile isSpace

theorem length_skipSpace_le (s : List Char) : (skipSpace s).length ≤ s.length := by
  exact (List.dropWhile_sublist isSpace).length_le

theorem length_of_skipSpace {s rest : List Char} (h : skipSpace s = rest) :
    rest.length ≤ s.length :=
  h ▸ length_skipSpace_le s

/-! ## Strings -/

def hexDigit? (c : Char) : Option Nat :=
  if c.isDigit then some (c.toNat - '0'.toNat)
  else if 'a' ≤ c ∧ c ≤ 'f' then some (c.toNat - 'a'.toNat + 10)
  else if 'A' ≤ c ∧ c ≤ 'F' then some (c.toNat - 'A'.toNat + 10)
  else none

/-- The number of four hexadecimal digits. -/
def codeUnit? (a b c d : Char) : Option Nat := do
  let a ← hexDigit? a
  let b ← hexDigit? b
  let c ← hexDigit? c
  let d ← hexDigit? d
  return ((a * 16 + b) * 16 + c) * 16 + d

def isHighSurrogate (n : Nat) : Bool := 0xD800 ≤ n && n < 0xDC00

def isLowSurrogate (n : Nat) : Bool := 0xDC00 ≤ n && n < 0xE000

def joinSurrogates (high low : Nat) : Nat := 0x10000 + (high - 0xD800) * 0x400 + (low - 0xDC00)

/-- Puts the code point with a number behind those read so far, which stand last first. -/
def pushPoint (n : Nat) (seen : List Char) : List Char :=
  (Text.Point.ofNat n).written.reverse ++ seen

/-- The character of an escape of one letter. -/
def simpleEscape? : Char → Option Char
  | '"' => some '"'
  | '\\' => some '\\'
  | '/' => some '/'
  | 'b' => some (Char.ofNat 8)
  | 'f' => some (Char.ofNat 12)
  | 'n' => some '\n'
  | 'r' => some '\r'
  | 't' => some '\t'
  | _ => none

/-- Reads a string behind its opening quote. `start` is the text from that quote on and `seen` the
characters read so far, last first. An escape of a code point is complete only if text follows. -/
def stringFrom (start seen : List Char) : List Char → Read String
  | [] => .error ⟨.openString, start⟩
  | '"' :: rest => .ok (String.ofList seen.reverse, rest)
  | ['\\'] => .error ⟨.openString, start⟩
  | '\\' :: 'u' :: a :: b :: c :: d :: next :: rest =>
    match codeUnit? a b c d with
    | none => .error ⟨.badCodePoint, 'u' :: a :: b :: c :: d :: next :: rest⟩
    | some high =>
      match next, rest with
      | '\\', 'u' :: e :: f :: g :: h :: last :: rest' =>
        if isHighSurrogate high then
          match codeUnit? e f g h with
          | none => .error ⟨.badCodePoint, 'u' :: e :: f :: g :: h :: last :: rest'⟩
          | some low =>
            if isLowSurrogate low then
              stringFrom start (pushPoint (joinSurrogates high low) seen) (last :: rest')
            else
              stringFrom start (pushPoint high seen)
                ('\\' :: 'u' :: e :: f :: g :: h :: last :: rest')
        else
          stringFrom start (pushPoint high seen)
            ('\\' :: 'u' :: e :: f :: g :: h :: last :: rest')
      | next, rest => stringFrom start (pushPoint high seen) (next :: rest)
  | '\\' :: 'u' :: rest => .error ⟨.badCodePoint, 'u' :: rest⟩
  | '\\' :: c :: rest =>
    match simpleEscape? c with
    | none => .error ⟨.badEscape, '\\' :: c :: rest⟩
    | some d => stringFrom start (d :: seen) rest
  | c :: rest =>
    if c.toNat < 0x20 then .error ⟨.controlCharacter, c :: rest⟩
    else stringFrom start (c :: seen) rest
termination_by s => s.length

theorem length_of_stringFrom {start seen s rest : List Char} {value : String}
    (h : stringFrom start seen s = .ok (value, rest)) : rest.length < s.length := by
  fun_induction stringFrom start seen s <;> simp_all <;> grind

/-! ## Numbers -/

def digitRun (s : List Char) : List Char := s.takeWhile Char.isDigit

def afterDigits (s : List Char) : List Char := s.dropWhile Char.isDigit

theorem length_afterDigits_le (s : List Char) : (afterDigits s).length ≤ s.length := by
  exact (List.dropWhile_sublist Char.isDigit).length_le

def natOfDigits (digits : List Char) : Nat :=
  digits.foldl (fun n c => n * 10 + (c.toNat - '0'.toNat)) 0

/-- The digits in front of the point: one zero, or digits that do not start with a zero. -/
def wholePart? (s : List Char) : Option (List Char × List Char) :=
  match s with
  | '0' :: rest => some (['0'], rest)
  | c :: rest => if c.isDigit then some (c :: digitRun rest, afterDigits rest) else none
  | [] => none

/-- The digits behind a point, none if no digit follows the point. -/
def fractionPart (s : List Char) : List Char × List Char :=
  match s with
  | '.' :: c :: rest =>
    if c.isDigit then (c :: digitRun rest, afterDigits rest) else ([], s)
  | _ => ([], s)

/-- The digits of an exponent behind its mark and its sign. -/
def exponentDigits? (negative : Bool) (s : List Char) : Option (Int × List Char) :=
  match s with
  | c :: rest =>
    if c.isDigit then
      let size : Int := natOfDigits (c :: digitRun rest)
      some (if negative then -size else size, afterDigits rest)
    else none
  | [] => none

/-- An exponent, none if the text does not continue as one. -/
def exponentPart? (s : List Char) : Option (Int × List Char) :=
  match s with
  | c :: rest =>
    if c = 'e' || c = 'E' then
      match rest with
      | '-' :: more => exponentDigits? true more
      | '+' :: more => exponentDigits? false more
      | more => exponentDigits? false more
    else none
  | [] => none

/-- Reads a number without its sign. It is an integer only without fraction and exponent. -/
def unsignedNumber? (negative : Bool) (s : List Char) : Option (Json × List Char) :=
  (wholePart? s).map fun (whole, afterWhole) =>
    let (fraction, afterFraction) := fractionPart afterWhole
    let value := natOfDigits (whole ++ fraction)
    let places : Int := fraction.length
    match exponentPart? afterFraction with
    | some (exponent, rest) => (.float (.decimal ⟨negative, value, exponent - places⟩), rest)
    | none =>
      if fraction.isEmpty then (.int (if negative then -(value : Int) else value), afterFraction)
      else (.float (.decimal ⟨negative, value, -places⟩), afterFraction)

theorem length_of_wholePart? {s rest digits : List Char}
    (h : wholePart? s = some (digits, rest)) : rest.length < s.length := by
  unfold wholePart? at h
  split at h
  · simp only [Option.some.injEq, Prod.mk.injEq] at h
    simp [← h.2]
  · rename_i c rest' _
    split at h
    · simp only [Option.some.injEq, Prod.mk.injEq] at h
      have := length_afterDigits_le rest'
      simp only [← h.2, List.length_cons]
      omega
    · cases h
  · cases h

theorem length_fractionPart_le (s : List Char) : (fractionPart s).2.length ≤ s.length := by
  unfold fractionPart
  split
  · rename_i c rest
    split
    · have := length_afterDigits_le rest
      simp only [List.length_cons]
      omega
    · exact Nat.le_refl _
  · exact Nat.le_refl _

theorem length_of_exponentDigits? {negative : Bool} {s rest : List Char} {n : Int}
    (h : exponentDigits? negative s = some (n, rest)) : rest.length < s.length := by
  unfold exponentDigits? at h
  split at h
  · rename_i c more
    split at h
    · simp only [Option.some.injEq, Prod.mk.injEq] at h
      have := length_afterDigits_le more
      simp only [← h.2, List.length_cons]
      omega
    · cases h
  · cases h

theorem length_of_exponentPart? {s rest : List Char} {n : Int}
    (h : exponentPart? s = some (n, rest)) : rest.length < s.length := by
  unfold exponentPart? at h
  split at h
  · split at h
    · split at h <;> have := length_of_exponentDigits? h <;> simp only [List.length_cons] <;> omega
    · cases h
  · cases h

theorem length_of_unsignedNumber? {negative : Bool} {s rest : List Char} {value : Json}
    (h : unsignedNumber? negative s = some (value, rest)) : rest.length < s.length := by
  unfold unsignedNumber? at h
  obtain ⟨⟨whole, afterWhole⟩, hw, h⟩ := Option.map_eq_some_iff.mp h
  have h1 := length_of_wholePart? hw
  have h2 := length_fractionPart_le afterWhole
  dsimp only at h
  split at h
  · rename_i he
    have h3 := length_of_exponentPart? he
    simp only [Prod.mk.injEq] at h
    have := h.2
    subst this
    omega
  · split at h <;> simp only [Prod.mk.injEq] at h <;> have := h.2 <;> subst this <;> omega

/-! ## Values -/

/-- Reads a value that is a word or a number. -/
def atom? : List Char → Option (Json × List Char)
  | 'n' :: 'u' :: 'l' :: 'l' :: rest => some (.null, rest)
  | 't' :: 'r' :: 'u' :: 'e' :: rest => some (.bool true, rest)
  | 'f' :: 'a' :: 'l' :: 's' :: 'e' :: rest => some (.bool false, rest)
  | 'N' :: 'a' :: 'N' :: rest => some (.float .notANumber, rest)
  | 'I' :: 'n' :: 'f' :: 'i' :: 'n' :: 'i' :: 't' :: 'y' :: rest =>
    some (.float (.infinity false), rest)
  | '-' :: 'I' :: 'n' :: 'f' :: 'i' :: 'n' :: 'i' :: 't' :: 'y' :: rest =>
    some (.float (.infinity true), rest)
  | '-' :: rest => unsignedNumber? true rest
  | s => unsignedNumber? false s

theorem length_of_atom? {s rest : List Char} {value : Json} (h : atom? s = some (value, rest)) :
    rest.length < s.length := by
  unfold atom? at h
  split at h
  case h_7 => have := length_of_unsignedNumber? h; simp only [List.length_cons]; omega
  case h_8 => exact length_of_unsignedNumber? h
  all_goals
    simp only [Option.some.injEq, Prod.mk.injEq] at h
    simp only [← h.2, List.length_cons]
    omega

/-- The number of digits of an integer that has too many of them. An integer is written without
leading zeros, and so its value tells. -/
def excessDigits? : Json → Option Nat
  | .int n => if Text.Numeral.isWritable n then none else some (Text.Numeral.digitCount n)
  | _ => none

/-- A value together with a rest that is shorter than `bound`. -/
abbrev ReadBelow (bound : Nat) (α : Type) :=
  Except Stop (α × { rest : List Char // rest.length < bound })

/-- Reads the name of a field. -/
def nameFrom (s : List Char) : Read String :=
  match s with
  | '"' :: rest => stringFrom s [] rest
  | _ => .error ⟨.noName, s⟩

theorem length_of_nameFrom {s rest : List Char} {name : String}
    (h : nameFrom s = .ok (name, rest)) : rest.length < s.length := by
  unfold nameFrom at h
  split at h
  · exact Nat.lt_succ_of_lt (length_of_stringFrom h)
  · cases h

mutual

/-- Reads one value at the start of the text. -/
def valueFrom (s : List Char) : ReadBelow s.length Json :=
  match s with
  | '"' :: rest =>
    match h : stringFrom ('"' :: rest) [] rest with
    | .ok (value, rest') =>
      .ok (.str value, ⟨rest', Nat.lt_succ_of_lt (length_of_stringFrom h)⟩)
    | .error stop => .error stop
  | '{' :: rest =>
    match h : skipSpace rest with
    | '}' :: rest' => .ok (.obj [], ⟨rest', Nat.lt_succ_of_lt (length_of_skipSpace h)⟩)
    | rest' =>
      (fieldsFrom (rest.length + 1) [] rest' (Nat.lt_succ_of_le (length_of_skipSpace h))).map
        fun (fields, last) => (.obj fields, last)
  | '[' :: rest =>
    match h : skipSpace rest with
    | ']' :: rest' => .ok (.arr [], ⟨rest', Nat.lt_succ_of_lt (length_of_skipSpace h)⟩)
    | rest' =>
      (itemsFrom (rest.length + 1) [] rest' (Nat.lt_succ_of_le (length_of_skipSpace h))).map
        fun (items, last) => (.arr items, last)
  | s =>
    match h : atom? s with
    | some (value, rest) =>
      match excessDigits? value with
      | some digits => .error ⟨.longNumeral digits, s⟩
      | none => .ok (value, ⟨rest, length_of_atom? h⟩)
    | none => .error ⟨.noValue, s⟩
termination_by (s.length, 0)
decreasing_by
  all_goals
    have := length_of_skipSpace h
    simp only [List.length_cons]
    omega

/-- Reads the items of an array up to its closing bracket. `seen` holds the items read so far, last
first. -/
def itemsFrom (bound : Nat) (seen : List Json) (s : List Char) (hs : s.length < bound) :
    ReadBelow bound (List Json) :=
  match valueFrom s with
  | .error stop => .error stop
  | .ok (item, ⟨rest, hr⟩) =>
    match h : skipSpace rest with
    | ']' :: rest' =>
      have := length_of_skipSpace h
      .ok ((item :: seen).reverse, ⟨rest', by simp only [List.length_cons] at this; omega⟩)
    | ',' :: rest' =>
      have := length_of_skipSpace h
      have := length_skipSpace_le rest'
      itemsFrom bound (item :: seen) (skipSpace rest')
        (by simp only [List.length_cons] at *; omega)
    | rest' => .error ⟨.noComma, rest'⟩
termination_by (s.length, 1)
decreasing_by
  · omega
  · simp only [List.length_cons] at *; omega

/-- Reads the fields of an object up to its closing brace. -/
def fieldsFrom (bound : Nat) (seen : List (String × Json)) (s : List Char)
    (hs : s.length < bound) : ReadBelow bound (List (String × Json)) :=
  match h : nameFrom s with
  | .error stop => .error stop
  | .ok (key, afterKey) =>
    have := length_of_nameFrom h
    match hc : skipSpace afterKey with
    | ':' :: afterColon =>
      have := length_of_skipSpace hc
      have := length_skipSpace_le afterColon
      match valueFrom (skipSpace afterColon) with
      | .error stop => .error stop
      | .ok (value, ⟨rest, hr⟩) =>
        match hv : skipSpace rest with
        | '}' :: last =>
          have := length_of_skipSpace hv
          .ok (collectFields ((key, value) :: seen).reverse,
            ⟨last, by simp only [List.length_cons] at *; omega⟩)
        | ',' :: last =>
          have := length_of_skipSpace hv
          have := length_skipSpace_le last
          fieldsFrom bound ((key, value) :: seen) (skipSpace last)
            (by simp only [List.length_cons] at *; omega)
        | last => .error ⟨.noComma, last⟩
    | rest => .error ⟨.noColon, rest⟩
termination_by (s.length, 1)
decreasing_by
  all_goals simp only [List.length_cons] at *; omega

end

/-- A flaw and its place in a text, in code points. -/
structure SyntaxError where
  flaw : Flaw
  offset : Nat
  line : Nat
  column : Nat
  deriving DecidableEq, Repr

namespace SyntaxError

/-- Places a flaw behind the code points `before`. Lines and columns count from one. -/
def placed (flaw : Flaw) (before : List Text.Point) : SyntaxError :=
  { flaw
    offset := before.length
    line := before.count (.char '\n') + 1
    column := (before.reverse.takeWhile (· != .char '\n')).length + 1 }

def message (e : SyntaxError) : String :=
  s!"{e.flaw.message}: line {e.line} column {e.column} (char {e.offset})"

end SyntaxError

def byteOrderMark : Char := Char.ofNat 0xFEFF

/-- Reads a whole text: one value with nothing but space around it. -/
def documentFrom (s : List Char) : Except Stop Json :=
  if s.head? = some byteOrderMark then .error ⟨.byteOrderMark, s⟩
  else match valueFrom (skipSpace s) with
    | .error stop => .error stop
    | .ok (value, ⟨rest, _⟩) =>
      match skipSpace rest with
      | [] => .ok value
      | rest' => .error ⟨.trailingText, rest'⟩

/-- Reads a document. -/
def parse (text : String) : Except SyntaxError Json :=
  let s := text.toList
  (documentFrom s).mapError fun stop =>
    .placed stop.flaw (Text.points (s.take (s.length - stop.rest.length)))

end Stimulus.Json
