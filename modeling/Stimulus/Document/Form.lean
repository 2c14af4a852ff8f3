import Stimulus.Forest
import Stimulus.Json.Basic

/-!
# Forms of a document

The objects that a forest document is made of. An expression object tells its form by its `type`.
-/
namespace Stimulus.Document

/-- The forms of an expression object. -/
inductive ExprForm
  | literal
  | enumItem
  | identifier
  | range
  | pattern
  | sequence
  | sample
  | pool
  | weightedSample
  | weightedPool
  | unary
  | binary
  deriving DecidableEq, Repr

namespace ExprForm

def all : List ExprForm :=
  [literal, enumItem, identifier, range, pattern, sequence, sample, pool, weightedSample,
    weightedPool, unary, binary]

/-- The name by which a document tells the form. -/
def name : ExprForm → String
  | literal => "literal"
  | enumItem => "enum_item"
  | identifier => "identifier"
  | range => "range"
  | pattern => "pattern"
  | sequence => "sequence"
  | sample => "sample_with_replacement"
  | pool => "sample_without_replacement"
  | weightedSample => "weighted_sample_with_replacement"
  | weightedPool => "weighted_sample_without_replacement"
  | unary => "unary"
  | binary => "binary"

def ofName? (s : String) : Option ExprForm := all.find? (·.name == s)

@[simp] theorem ofName?_name (form : ExprForm) : ofName? form.name = some form := by
  cases form <;> decide

theorem name_of_ofName? {s : String} {form : ExprForm} (h : ofName? s = some form) :
    form.name = s := by
  simpa using List.find?_some h

/-- The keys that an expression object of the form may have besides its `type`, in the order in
which they are checked. -/
def keys : ExprForm → List String
  | literal => ["value"]
  | enumItem => ["name", "value"]
  | identifier => ["path", "method", "position"]
  | range => ["min", "max"]
  | pattern | sample | pool | weightedSample | weightedPool => ["members"]
  | sequence => ["first", "last", "increment"]
  | unary => ["op", "operand"]
  | binary => ["op", "left", "right"]

end ExprForm

/-- The objects other than expressions. -/
inductive RecordForm
  | forest
  | enum
  | enumMember
  | declaration
  | position
  | weighted
  deriving DecidableEq, Repr

namespace RecordForm

/-- The name of the form in messages. -/
def label : RecordForm → String
  | forest => "ForestDoc"
  | enum => "EnumDoc"
  | enumMember => "EnumMemberDoc"
  | declaration => "VariableDoc"
  | position => "PositionDoc"
  | weighted => "WeightedDoc"

def keys : RecordForm → List String
  | forest => ["enums", "variables"]
  | enum => ["name", "items", "position"]
  | enumMember => ["name", "value"]
  | declaration => ["name", "expr", "position"]
  | position => ["line", "column", "file"]
  | weighted => ["weight", "expr"]

end RecordForm

end Stimulus.Document
