import Stimulus.Json.Reader

/-!
# Reading piece by piece

What a reader makes of a text, from what it makes of the pieces: strings, empty arrays, and objects
field by field.
-/
namespace Stimulus.Json

/-- A text begins with a value; a rest stands behind it. -/
def Reads (s : List Char) (value : Json) (rest : List Char) : Prop :=
  ∃ h, valueFrom s = .ok (value, ⟨rest, h⟩)

/-- A text goes on with fields behind those that are read, which stand last first, up to the brace
that closes their object. -/
def ReadsFields (seen : List (String × Json)) (s : List Char) (fields : List (String × Json))
    (rest : List Char) : Prop :=
  ∀ bound hs, ∃ h, fieldsFrom bound seen s hs = .ok (fields, ⟨rest, h⟩)

variable {key value : String} {seen fields : List (String × Json)} {item : Json}
  {s rest last : List Char}

theorem reads_string (h : stringFrom ('"' :: s) [] s = .ok (value, rest)) :
    Reads ('"' :: s) (.str value) rest := by
  refine ⟨Nat.lt_succ_of_lt (length_of_stringFrom h), ?_⟩
  rw [valueFrom]
  split <;> rename_i heq <;> rw [h] at heq <;> cases heq
  rfl

theorem reads_emptyArray (h : skipSpace s = ']' :: rest) : Reads ('[' :: s) (.arr []) rest := by
  refine ⟨Nat.lt_succ_of_lt (length_of_skipSpace h), ?_⟩
  rw [valueFrom]
  split
  · rename_i heq
    rw [h] at heq
    cases heq
    rfl
  · rename_i hother
    exact absurd h (hother rest)

theorem reads_object (h : skipSpace s = '"' :: rest)
    (hfields : ReadsFields [] ('"' :: rest) fields last) : Reads ('{' :: s) (.obj fields) last := by
  obtain ⟨hlast, hfrom⟩ := hfields (s.length + 1) (Nat.lt_succ_of_le (length_of_skipSpace h))
  refine ⟨hlast, ?_⟩
  rw [valueFrom]
  split
  · rename_i heq
    rw [h] at heq
    cases heq
  · simp only [h, hfrom]
    rfl

/-- A text begins with a field; a rest stands behind it. -/
structure ReadsField (s : List Char) (key : String) (item : Json) (rest : List Char) : Prop where
  exists_colon : ∃ afterKey afterColon, nameFrom s = .ok (key, afterKey) ∧
    skipSpace afterKey = ':' :: afterColon ∧ Reads (skipSpace afterColon) item rest

theorem ReadsField.length_lt (h : ReadsField s key item rest) : rest.length < s.length := by
  obtain ⟨afterKey, afterColon, hname, hcolon, hitem, -⟩ := h
  have hkey := length_of_nameFrom hname
  have hafter := length_of_skipSpace hcolon
  have hspace := length_skipSpace_le afterColon
  simp only [List.length_cons] at hafter
  omega

/-- What stands behind a field decides how the fields go on. -/
theorem ReadsField.fieldsFrom_eq (h : ReadsField s key item rest) {bound : Nat}
    (hs : s.length < bound) {mark : Char} {more : List Char}
    (hmark : skipSpace rest = mark :: more) :
    (mark = '}' → ∃ h, fieldsFrom bound seen s hs =
      .ok (collectFields ((key, item) :: seen).reverse, ⟨more, h⟩)) ∧
    (mark = ',' → ∃ h, fieldsFrom bound seen s hs =
      fieldsFrom bound ((key, item) :: seen) (skipSpace more) h) := by
  have hrest := h.length_lt
  have hmore := length_of_skipSpace hmark
  have hspace := length_skipSpace_le more
  rw [List.length_cons] at hmore
  obtain ⟨afterKey, afterColon, hname, hcolon, hitem, hvalue⟩ := h
  constructor
  all_goals
    rintro rfl
    refine ⟨by omega, ?_⟩
    rw [fieldsFrom]
    split <;> rename_i heq <;> rw [hname] at heq <;> cases heq
    split
    case h_2 hother => exact absurd hcolon (hother afterColon)
    rename_i hc
    rw [hcolon] at hc
    cases hc
    simp only [hvalue]
    split
    case h_3 hbrace hcomma => simp [hmark] at hbrace hcomma
    all_goals
      rename_i hv
      rw [hmark] at hv
      cases hv
    rfl

theorem readsFields_last (h : ReadsField s key item rest) (hend : skipSpace rest = '}' :: last) :
    ReadsFields seen s (collectFields ((key, item) :: seen).reverse) last :=
  fun _ hs => (h.fieldsFrom_eq hs hend).1 rfl

theorem readsFields_more {more : List Char} (h : ReadsField s key item rest)
    (hmore : skipSpace rest = ',' :: more)
    (hfields : ReadsFields ((key, item) :: seen) (skipSpace more) fields last) :
    ReadsFields seen s fields last := by
  intro bound hs
  obtain ⟨hbound, heq⟩ := (h.fieldsFrom_eq hs hmore).2 rfl
  rw [heq]
  exact hfields bound hbound

theorem parse_of_reads {text : String} (hmark : text.toList.head? ≠ some byteOrderMark)
    (h : Reads (skipSpace text.toList) item rest) (hrest : skipSpace rest = []) :
    parse text = .ok item := by
  obtain ⟨hlength, hvalue⟩ := h
  simp only [parse, documentFrom, if_neg hmark, hvalue, hrest]
  rfl

end Stimulus.Json
