import Stimulus.Decimal.Shortest
import Stimulus.Text.Quoted

/-!
# Document values

The values of a JSON document. Integers are exact and are kept apart from numbers with a fraction
or an exponent; the fields of an object keep their order.
-/
namespace Stimulus

inductive Json
  | null
  | bool (value : Bool)
  | int (value : Int)
  | float (value : Fraction)
  | str (value : String)
  | arr (items : List Json)
  | obj (fields : List (String × Json))
  deriving Inhabited, BEq, Repr

namespace Json

/-- Sets a field. A field that is there already keeps its place. -/
def putField (key : String) (value : Json) : List (String × Json) → List (String × Json)
  | [] => [(key, value)]
  | (k, v) :: rest =>
    if k = key then (key, value) :: rest else (k, v) :: putField key value rest

theorem lookup_putField_self (key : String) (value : Json)
    (fields : List (String × Json)) :
    (putField key value fields).lookup key = some value := by
  induction fields with
  | nil => simp [putField]
  | cons field rest ih =>
    obtain ⟨k, v⟩ := field
    by_cases h : k = key
    · simp [putField, h]
    · have h' : (key == k) = false := by simpa using fun e => h e.symm
      simp [putField, h, List.lookup_cons, h', ih]

theorem lookup_putField_of_ne {key other : String} (h : other ≠ key) (value : Json)
    (fields : List (String × Json)) :
    (putField key value fields).lookup other = fields.lookup other := by
  induction fields with
  | nil => simp [putField, List.lookup_cons, beq_false_of_ne h]
  | cons field rest ih =>
    obtain ⟨k, v⟩ := field
    by_cases hk : k = key
    · subst hk
      simp [putField, List.lookup_cons, beq_false_of_ne h]
    · by_cases ho : other = k
      · simp [putField, hk, ho]
      · simp [putField, hk, List.lookup_cons, beq_false_of_ne ho, ih]

/-- The fields in the order of their first mention, each with its last value. -/
def collectFields (mentions : List (String × Json)) : List (String × Json) :=
  mentions.foldl (fun fields (key, value) => putField key value fields) []

mutual

/-- The text of a value as messages show it. -/
def spelled : Json → String
  | .null => "None"
  | .bool true => "True"
  | .bool false => "False"
  | .int n => toString n
  | .float x => x.text
  | .str s => Text.quoted s
  | .arr items => Text.bracketed (spelledItems items)
  | .obj fields => "\x7b" ++ ", ".intercalate (spelledFields fields) ++ "\x7d"

def spelledItems : List Json → List String
  | [] => []
  | item :: rest => item.spelled :: spelledItems rest

def spelledFields : List (String × Json) → List String
  | [] => []
  | (key, value) :: rest => (Text.quoted key ++ ": " ++ value.spelled) :: spelledFields rest

end

end Json

end Stimulus
