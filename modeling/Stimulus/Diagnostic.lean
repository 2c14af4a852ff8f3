import Stimulus.Expr.Text

/-!
# Diagnostics

The causes for which a forest is refused or a variable cannot be evaluated, and the diagnostics
made of them: a kind, a text, and the variable and the position they belong to, as far as these
are known.
-/
namespace Stimulus

/-- The families of diagnostics. -/
inductive ErrorFamily
  | general
  | construction
  | evaluation
  | format
  deriving DecidableEq, Repr

namespace ErrorFamily

def label : ErrorFamily → String
  | general => "error"
  | construction => "construction"
  | evaluation => "evaluation"
  | format => "format"

end ErrorFamily

/-- The kinds of diagnostics: the families themselves, and finer kinds of two of them. -/
inductive ErrorKind
  | general
  | construction
  | evaluation
  | format
  | unresolvedIdentifier
  | duplicateDeclaration
  | emptyPool
  | invalidWeight
  | invalidRange
  | zeroIncrement
  | weightSum
  | arithmetic
  | dynamicRange
  | dynamicIncrement
  deriving DecidableEq, Repr

namespace ErrorKind

def family : ErrorKind → ErrorFamily
  | general => .general
  | format => .format
  | evaluation | weightSum | arithmetic | dynamicRange | dynamicIncrement => .evaluation
  | _ => .construction

end ErrorKind

structure Diagnostic where
  kind : ErrorKind
  text : String
  variableName? : Option String := none
  position? : Option Position := none
  deriving DecidableEq, Repr

namespace Diagnostic

/-- The text behind its position and its variable. -/
def render (d : Diagnostic) : String :=
  let position := d.position?.toList.map fun p => s!"{p.text}:"
  let variableName := d.variableName?.toList.map fun name => s!"variable '{name}':"
  " ".intercalate (position ++ variableName ++ [d.text])

end Diagnostic

/-- Why a forest, or an expression against a model, is inconsistent. -/
inductive ConstructionCause
  | duplicateEnum (enum : String)
  | duplicateItem (enum item : String)
  | negativeItem (enum item : String) (value : Int)
  | emptyEnum (enum : String)
  | duplicateVariable (name : String)
  | enumNamesake (name : String)
  | ambiguousItem (path : String) (enums : List String)
  | selfReference (path : String)
  | forwardReference (path : String)
  | noVariable (path : String) (access : Access)
  | undeclared (path : String)
  | nextOutsideCycle (name : String)
  | reversedRange (range : Expr)
  | zeroIncrement (sequence : Expr)
  | emptySampler
  | negativeWeight (weight : Int)
  | emptyWeightedPool (pool : Expr)

namespace ConstructionCause

def kind : ConstructionCause → ErrorKind
  | duplicateEnum _ | duplicateItem .. | duplicateVariable _ | enumNamesake _ =>
    .duplicateDeclaration
  | negativeItem .. | nextOutsideCycle _ => .construction
  | emptyEnum _ | emptySampler | emptyWeightedPool _ => .emptyPool
  | ambiguousItem .. | selfReference _ | forwardReference _ | noVariable .. | undeclared _ =>
    .unresolvedIdentifier
  | reversedRange _ => .invalidRange
  | zeroIncrement _ => .zeroIncrement
  | negativeWeight _ => .invalidWeight

def text : ConstructionCause → String
  | duplicateEnum enum => s!"enum '{enum}' is declared more than once"
  | duplicateItem enum item => s!"enum '{enum}' declares item '{item}' more than once"
  | negativeItem enum item value =>
    s!"enum item '{enum}.{item}' must have a non-negative integer value, got {value}"
  | emptyEnum enum => s!"enum '{enum}' has no items"
  | duplicateVariable name => s!"'{name}' is declared more than once"
  | enumNamesake name => s!"'{name}' is already declared as an enum"
  | ambiguousItem path enums =>
    let list := ", ".intercalate enums
    s!"'{path}' is ambiguous; it is an item of enums {list}"
  | selfReference path => s!"'{path}' references itself"
  | forwardReference path => s!"'{path}' is referenced before it is declared"
  | noVariable path access => s!"'{path}.{access.name}': '{path}' is not a variable"
  | undeclared path => s!"'{path}' is not declared"
  | nextOutsideCycle name => s!"'{name}.next' would advance '{name}' outside a cycle"
  | reversedRange range => s!"range {range.text} has min > max"
  | zeroIncrement sequence => s!"sequence {sequence.text} has a zero increment"
  | emptySampler => "cannot sample from an empty set"
  | negativeWeight weight => s!"weight {weight} is not a non-negative integer"
  | emptyWeightedPool pool => s!"weighted pool {pool.text} has zero total count"

/-- Whether the text may be written. -/
def isWritable : ConstructionCause → Bool
  | negativeItem _ _ value => Text.Numeral.isWritable value
  | reversedRange e | zeroIncrement e | emptyWeightedPool e => e.isWritable
  | negativeWeight weight => Text.Numeral.isWritable weight
  | _ => true

end ConstructionCause

/-- Why a variable could not be evaluated. The integers in the texts are taken to be ones that may
be written, as those of every document that is read are. -/
inductive EvaluationCause
  | noEligibleMember
  | divisionByZero (left : Int)
  | moduloByZero (left : Int)
  | reversedRange (range : Expr) (lo hi : Int)
  | zeroIncrement (sequence : Expr)

namespace EvaluationCause

def kind : EvaluationCause → ErrorKind
  | noEligibleMember => .weightSum
  | divisionByZero _ | moduloByZero _ => .arithmetic
  | reversedRange .. => .dynamicRange
  | zeroIncrement _ => .dynamicIncrement

def text : EvaluationCause → String
  | noEligibleMember => "no eligible member to draw: weights sum to 0"
  | divisionByZero left => s!"division by zero: {left} / 0"
  | moduloByZero left => s!"modulo by zero: {left} % 0"
  | reversedRange range lo hi =>
    s!"range {range.text} evaluated to [{lo}, {hi}] with min > max"
  | zeroIncrement sequence => s!"sequence {sequence.text} evaluated a zero increment"

end EvaluationCause

/-- What stops an evaluation: a cause of its own, or a fault of a basic operation. -/
inductive Failure
  | cause (cause : EvaluationCause)
  | fault (fault : Fault)

/-- A cause with the variable and the position it belongs to. -/
structure Located (Cause : Type) where
  cause : Cause
  variableName? : Option String := none
  position? : Option Position := none

namespace Located

def construction (e : Located ConstructionCause) : Diagnostic :=
  { kind := e.cause.kind, text := e.cause.text, variableName? := e.variableName?
    position? := e.position? }

def evaluation (e : Located EvaluationCause) : Diagnostic :=
  { kind := e.cause.kind, text := e.cause.text, variableName? := e.variableName?
    position? := e.position? }

end Located

end Stimulus
