import Stimulus.Diagnostic
import Stimulus.Document.Decode
import Stimulus.Json.Reader

/-!
# Loading documents

Expressions and forests from document values, with one error for all that can be wrong with a
document.
-/
namespace Stimulus

/-- Why a document was refused. -/
inductive FormatError
  | unreadable (name : String) (error : Json.SyntaxError)
  | rejected (start : String) (first : Document.Issue) (others : List Document.Issue)

namespace FormatError

/-- The first issue with its location, and the number of the others. -/
def text : FormatError → String
  | unreadable name error => s!"{name}: invalid JSON: {error.message}"
  | rejected start first others =>
    if others.isEmpty then first.text start
    else s!"{first.text start} (and {others.length} more)"

def diagnostic (e : FormatError) : Diagnostic := { kind := .format, text := e.text }

end FormatError

namespace Document

/-- The outcome of a check of a document that stands at `start`. -/
def outcome {α : Type} (start : String) : Checked α → Except FormatError α
  | .valid value => .ok value
  | .invalid first others => .error (.rejected start first others)

/-- The expression of a document that stands at `start`. -/
def decodeExpr (start : String) (document : Json) : Except FormatError Expr :=
  outcome start (expression document)

def decodeForest (document : Json) : Except FormatError Forest :=
  outcome "" (forest document)

end Document

end Stimulus
