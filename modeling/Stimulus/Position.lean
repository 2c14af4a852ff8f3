/-!
# Positions

Where something stands in a source text. Positions are carried along for messages only.
-/
namespace Stimulus

structure Position where
  line : Int
  column : Int
  file? : Option String := none
  deriving DecidableEq, Repr

namespace Position

/-- The file is named only if it has a name that is not empty. -/
def text (p : Position) : String :=
  match p.file? with
  | some file => if file.isEmpty then s!"{p.line}:{p.column}" else s!"{file}:{p.line}:{p.column}"
  | none => s!"{p.line}:{p.column}"

end Position

end Stimulus
