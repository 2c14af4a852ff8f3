/-!
# Lone surrogates

A document can hold half of a surrogate pair without the other half. Such a half is a code point
and no character, and a string has only characters. So strings are kept in a written form: a half
is a mark and a character that stands in for it, the mark itself is written twice, and every other
character is written as it is. No two sequences of code points have the same written form.
-/
namespace Stimulus.Text

/-- A code point: a character, or a half of a surrogate pair by its place among all halves. -/
inductive Point
  | char (c : Char)
  | half (i : Fin 0x800)
  deriving DecidableEq, Repr

namespace Point

/-- The mark before the character that stands in for a half: the last character of all. -/
def mark : Char := Char.ofNat 0x10FFFF

/-- The character that stands in for a half. -/
def standIn (i : Fin 0x800) : Char := Char.ofNat (0xE000 + i.val)

theorem toNat_standIn (i : Fin 0x800) : (standIn i).toNat = 0xE000 + i.val := by
  have h : (0xE000 + i.val).isValidChar := Or.inr ⟨by omega, by omega⟩
  unfold standIn Char.ofNat
  rw [dif_pos h]
  rfl

/-- The written form of a code point. -/
def written : Point → List Char
  | char c => if c = mark then [mark, mark] else [c]
  | half i => [mark, standIn i]

/-- The code point that is written as the mark and `c`. -/
def marked (c : Char) : Point :=
  if h : 0xE000 ≤ c.toNat ∧ c.toNat < 0xE800 then half ⟨c.toNat - 0xE000, by omega⟩ else char c

@[simp] theorem marked_standIn (i : Fin 0x800) : marked (standIn i) = half i := by
  have h := toNat_standIn i
  have hi := i.isLt
  unfold marked
  rw [dif_pos (by omega)]
  exact congrArg half (Fin.ext (by simp only [h]; omega))

@[simp] theorem marked_mark : marked mark = char mark := by decide

/-- The number of a code point. -/
def toNat : Point → Nat
  | char c => c.toNat
  | half i => 0xD800 + i.val

/-- The code point with a number. -/
def ofNat (n : Nat) : Point :=
  if h : 0xD800 ≤ n ∧ n < 0xE000 then half ⟨n - 0xD800, by omega⟩ else char (Char.ofNat n)

def isHalf : Point → Bool
  | char _ => false
  | half _ => true

end Point

/-- Reads code points in front of a written form; `seen` holds those read before, last first. -/
def pointsAfter (seen : List Point) : List Char → List Point
  | [] => seen.reverse
  | [c] => (.char c :: seen).reverse
  | c :: d :: rest =>
    if c = Point.mark then pointsAfter (.marked d :: seen) rest
    else pointsAfter (.char c :: seen) (d :: rest)

/-- The code points of a written form. -/
def points (cs : List Char) : List Point := pointsAfter [] cs

theorem pointsAfter_written (seen : List Point) (p : Point) (rest : List Char) :
    pointsAfter seen (p.written ++ rest) = pointsAfter (p :: seen) rest := by
  cases p with
  | half i => simp [Point.written, pointsAfter]
  | char c =>
    by_cases h : c = Point.mark
    · simp [Point.written, pointsAfter, h]
    · cases rest <;> simp [Point.written, pointsAfter, h]

theorem pointsAfter_flatMap_written (seen ps : List Point) :
    pointsAfter seen (ps.flatMap Point.written) = seen.reverse ++ ps := by
  induction ps generalizing seen with
  | nil => simp [pointsAfter]
  | cons p rest ih => simp [List.flatMap_cons, pointsAfter_written, ih]

/-- The written form of code points. -/
def ofPoints (ps : List Point) : String := String.ofList (ps.flatMap Point.written)

/-- Nothing is lost in writing. -/
@[simp] theorem points_ofPoints (ps : List Point) : points (ofPoints ps).toList = ps := by
  simp [points, ofPoints, pointsAfter_flatMap_written]

/-- Whether a half of a surrogate pair stands in a written text. -/
def hasHalf (s : String) : Bool := (points s.toList).any Point.isHalf

/-- The written form of a text of characters alone. -/
def ofPlain (s : String) : String := ofPoints (s.toList.map .char)

/-- The characters of a written text. Where there is none, the replacement character stands. -/
def toPlain (s : String) : String :=
  String.ofList ((points s.toList).map fun
    | .char c => c
    | .half _ => Char.ofNat 0xFFFD)

@[simp] theorem toPlain_ofPlain (s : String) : toPlain (ofPlain s) = s := by
  simp [toPlain, ofPlain, List.map_map, Function.comp_def]

end Stimulus.Text
