import Stimulus.Expr.Basic
import Stimulus.Text.Numeral

/-!
# The text of an expression

Expressions are written as `[0, 7]` (range), `Pattern(1, 2)`, `Sequence(0, 3, 1)`, `r{1, 2}` and
`{1, 2}` (samples with and without replacement), `{2: 1, 3: 2}` (weighted), `a.copy` (reference)
and `(a + 1)`. A text is written only if none of the integers in it has too many digits.
-/
namespace Stimulus.Expr

def inBraces (items : List String) : String := "\x7b" ++ ", ".intercalate items ++ "\x7d"

mutual

def text : Expr → String
  | .literal value => toString value
  | .item name _ => name
  | .reference ref => ref.text
  | .range min max => "[" ++ min.text ++ ", " ++ max.text ++ "]"
  | .pattern members => "Pattern(" ++ ", ".intercalate (textMembers members) ++ ")"
  | .sequence first last increment =>
    "Sequence(" ++ first.text ++ ", " ++ last.text ++ ", " ++ increment.text ++ ")"
  | .sample members => "r" ++ inBraces (textMembers members)
  | .pool members => inBraces (textMembers members)
  | .weightedSample members => "r" ++ inBraces (textWeighted members)
  | .weightedPool members => inBraces (textWeighted members)
  | .unary op operand => op.symbol ++ operand.text
  | .binary op left right => "(" ++ left.text ++ " " ++ op.symbol ++ " " ++ right.text ++ ")"

def textMembers : List Expr → List String
  | [] => []
  | e :: rest => e.text :: textMembers rest

def textWeighted : List (Int × Expr) → List String
  | [] => []
  | (w, e) :: rest => (toString w ++ ": " ++ e.text) :: textWeighted rest

end

/-- The integers that a node adds to the text of an expression. -/
def ownIntegers : Expr → List Int
  | .literal value => [value]
  | .weightedSample members | .weightedPool members => weights members
  | _ => []

/-- The integers in the text of an expression. -/
def integers (e : Expr) : List Int := e.walk.flatMap ownIntegers

/-- Whether the text of an expression may be written. -/
def isWritable (e : Expr) : Bool := e.integers.all Text.Numeral.isWritable

end Stimulus.Expr
