import Stimulus.Document.Form

/-!
# Issues of a document

An issue is a problem at a place of a document. A check collects all issues of a document in
order; a message names the place of the first one and the number of the others.
-/
namespace Stimulus.Document

/-- A step from a value to a part of it. -/
inductive Step
  | key (name : String)
  | index (i : Nat)
  deriving DecidableEq, Repr

/-- Why a value is taken for no expression, pair or operator. -/
inductive Refusal
  | boolean
  | noExpression (value : Json)
  | noType
  | unknownType (value : Json)
  | noPair
  | unknownUnary (symbol : String)
  | unknownBinary (symbol : String)

namespace Refusal

/-- What kind of value a document holds, as messages name it. -/
def kindName : Json → String
  | .null => "NoneType"
  | .bool _ => "bool"
  | .int _ => "int"
  | .float _ => "float"
  | .str _ => "str"
  | .arr _ => "list"
  | .obj _ => "dict"

def text : Refusal → String
  | boolean => "booleans are not expressions"
  | noExpression value => s!"cannot decode {kindName value} as an expression"
  | noType => "missing key 'type'"
  | unknownType value => s!"unknown expression type {value.spelled}"
  | noPair => "weighted pair must be [weight, expr]"
  | unknownUnary symbol => (Fault.unknownUnary symbol).message
  | unknownBinary symbol => (Fault.unknownBinary symbol).message

end Refusal

inductive Problem
  | missing
  | unknownKey
  | notInteger
  | notString
  | loneHalf
  | emptyString
  | notList
  | notRecord (form : RecordForm)
  | notAccess
  | refused (reason : Refusal)

namespace Problem

def text : Problem → String
  | missing => "Field required"
  | unknownKey => "Extra inputs are not permitted"
  | notInteger => "Input should be a valid integer"
  | notString => "Input should be a valid string"
  | loneHalf => "Input should be a valid string, unable to parse raw data as a unicode string"
  | emptyString => "String should have at least 1 character"
  | notList => "Input should be a valid list"
  | notRecord form => s!"Input should be a valid dictionary or instance of {form.label}"
  | notAccess => "Input should be 'prev', 'next' or 'copy'"
  | refused reason => s!"Value error, {reason.text}"

end Problem

structure Issue where
  path : List Step
  problem : Problem

namespace Issue

/-- Continues a location by one step. Names of expression forms are left out. -/
def extendLocation (location : String) : Step → String
  | .index i => s!"{location}[{i}]"
  | .key name =>
    if (ExprForm.ofName? name).isSome then location
    else if location.isEmpty then name
    else s!"{location}.{name}"

/-- The location of an issue in a document that stands at `start`. -/
def location (start : String) (issue : Issue) : String :=
  let reached := issue.path.foldl extendLocation start
  if reached.isEmpty then "document" else reached

def text (start : String) (issue : Issue) : String :=
  s!"{issue.location start}: {issue.problem.text}"

end Issue

/-- The outcome of a check: a result, or one and more issues in the order of the document. -/
inductive Checked (α : Type) where
  | valid (value : α)
  | invalid (first : Issue) (others : List Issue)

namespace Checked

variable {α β γ : Type}

def refuse (problem : Problem) : Checked α := .invalid ⟨[], problem⟩ []

def issues : Checked α → List Issue
  | .valid _ => []
  | .invalid first others => first :: others

def value? : Checked α → Option α
  | .valid value => some value
  | .invalid .. => none

def map (f : α → β) : Checked α → Checked β
  | .valid value => .valid (f value)
  | .invalid first others => .invalid first others

/-- Both outcomes. The issues of the first come before those of the second. -/
def both (f : α → β → γ) : Checked α → Checked β → Checked γ
  | .valid a, .valid b => .valid (f a b)
  | .valid _, .invalid first others => .invalid first others
  | .invalid first others, b => .invalid first (others ++ b.issues)

/-- Puts an outcome behind a step. -/
def under (step : Step) : Checked α → Checked α
  | .valid value => .valid value
  | .invalid first others =>
    .invalid { first with path := step :: first.path }
      (others.map fun issue => { issue with path := step :: issue.path })

/-- Adds issues behind those of an outcome. -/
def followedBy (checked : Checked α) (more : List Issue) : Checked α :=
  match checked, more with
  | checked, [] => checked
  | .valid _, issue :: rest => .invalid issue rest
  | .invalid first others, more => .invalid first (others ++ more)

@[simp] theorem issues_valid (value : α) : (valid value).issues = [] := rfl

@[simp] theorem issues_map (f : α → β) (checked : Checked α) :
    (checked.map f).issues = checked.issues := by
  cases checked <;> rfl

@[simp] theorem issues_both (f : α → β → γ) (a : Checked α) (b : Checked β) :
    (a.both f b).issues = a.issues ++ b.issues := by
  cases a <;> cases b <;> simp [both, issues]

@[simp] theorem issues_followedBy (checked : Checked α) (more : List Issue) :
    (checked.followedBy more).issues = checked.issues ++ more := by
  cases checked <;> cases more <;> simp [followedBy, issues]

end Checked

end Stimulus.Document
