import Stimulus.Document.Load

/-!
# Errors

Everything that can go wrong between a document and an answer.
-/
namespace Stimulus

inductive Error
  | format (error : FormatError)
  | construction (error : Located ConstructionCause)
  | evaluation (error : Located EvaluationCause)
  | fault (fault : Fault)

namespace Error

/-- A fault has no diagnostic. -/
def diagnostic? : Error → Option Diagnostic
  | format error => some error.diagnostic
  | construction error => some error.construction
  | evaluation error => some error.evaluation
  | fault _ => none

def message : Error → String
  | format error => error.diagnostic.render
  | construction error => error.construction.render
  | evaluation error => error.evaluation.render
  | fault f => f.message

/-- The error of an inconsistency whose text may hold integers. The text is written when the error
is raised, and where that is refused, the refusal is raised in its place. -/
def ofConstruction (error : Located ConstructionCause) : Error :=
  if error.cause.isWritable then .construction error else .fault .unwritableNumeral

/-- An error of an evaluation that belongs to no variable. -/
def ofFailure : Failure → Error
  | .cause cause => .evaluation { cause }
  | .fault f => .fault f

end Error

end Stimulus
