import Stimulus.Cell.Basic
import Stimulus.Error

/-!
# Building cells

The cells of an expression before their first step. Every reference is bound once, when its cell is
built. A copy gets cells of its own, built from the expression of the variable it names, with the
references of that expression bound anew.
-/
namespace Stimulus

open Stimulus.Sampling

namespace Chooser

def ofSample : Chooser := sample none

def ofPool (count : Nat) : Except Fault Chooser :=
  (Pool.ofSize count).map fun p => pool p none

def ofWeightedSample (weights : List Int) : Except Fault Chooser :=
  (WeightTable.ofWeights weights).map fun table => weightedSample table none

def ofWeightedPool (weights : List Int) : Except Fault Chooser :=
  (WeightedPool.ofWeights weights).map fun p => weightedPool p none

end Chooser

namespace Cell

/-- A cell that chooses among members. -/
def choose (chooser : Except Fault Chooser) (members : List Cell) : Except Error Cell :=
  match chooser with
  | .ok chooser => .ok (.choice chooser members {})
  | .error fault => .error (.fault fault)

mutual

/-- The cells of an expression; `bind` gives the cell of a reference. -/
def build (bind : Identifier → Except Error Cell) : Expr → Except Error Cell
  | .literal value => .ok (.leaf (.literal value) {})
  | .item name value => .ok (.leaf (.item name value) {})
  | .reference ref => bind ref
  | .range min max => do
    let min ← build bind min
    let max ← build bind max
    return .range min max {}
  | .pattern members => do
    let members ← buildMembers bind members
    return .choice (.pattern 0) members {}
  | .sequence first last increment => do
    let first ← build bind first
    let last ← build bind last
    let increment ← build bind increment
    return .sequence first last increment {} {}
  | .sample members => do
    let members ← buildMembers bind members
    return .choice .ofSample members {}
  | .pool members => do
    let members ← buildMembers bind members
    choose (Chooser.ofPool members.length) members
  | .weightedSample members => do
    let cells ← buildWeighted bind members
    choose (Chooser.ofWeightedSample (Expr.weights members)) cells
  | .weightedPool members => do
    let cells ← buildWeighted bind members
    choose (Chooser.ofWeightedPool (Expr.weights members)) cells
  | .unary op operand => do
    let operand ← build bind operand
    return .unary op operand {}
  | .binary op left right => do
    let left ← build bind left
    let right ← build bind right
    return .binary op left right {}

def buildMembers (bind : Identifier → Except Error Cell) :
    List Expr → Except Error (List Cell)
  | [] => .ok []
  | e :: rest => do
    let cell ← build bind e
    let cells ← buildMembers bind rest
    return cell :: cells

def buildWeighted (bind : Identifier → Except Error Cell) :
    List (Int × Expr) → Except Error (List Cell)
  | [] => .ok []
  | (_, e) :: rest => do
    let cell ← build bind e
    let cells ← buildWeighted bind rest
    return cell :: cells

end

end Cell

namespace Scope

/-- The cell of a bound reference; `body` gives the cells of a copied variable. -/
def cellOf (body : Nat → Except Error Cell) (ref : Identifier) :
    Target → Except Error Cell
  | .constant value => .ok (.leaf (.constant ref value) {})
  | .enumeration name values => .ok (.leaf (.enumeration ref name values) {})
  | .read name index => .ok (.leaf (.read ref name index) {})
  | .next name index => .ok (.leaf (.next ref name index) {})
  | .copy name index => (body index).map fun cell => .copy ref name cell {}

/-- Binds a reference; one without a position is looked up at `position?`. -/
def bind (scope : Scope) (use : Use) (body : Nat → Except Error Cell)
    (position? : Option Position) (ref : Identifier) : Except Error Cell :=
  match scope.resolve use (ref.placedAt position?) with
  | .error error => .error (.construction error)
  | .ok target => cellOf body ref target

/-- The cells for a copy of the variable at `index`, which is below `bound`. A copy inside it copies
a variable that was declared before. -/
def bodyBelow (scope : Scope) (use : Use) : (bound index : Nat) → Except Error Cell
  | 0, index =>
    let cause := .forwardReference ((scope.declarations[index]?.map (·.name)).getD "")
    .error (.construction { cause, variableName? := use.subject? })
  | bound + 1, index =>
    if index = bound then
      match scope.declarations[index]? with
      | some d => Cell.build (scope.bind use (scope.bodyBelow use bound) none) d.expr
      | none => .error (.fault (.outOfReach index))
    else scope.bodyBelow use bound index

/-- The cells of an expression in a scope. -/
def buildCell (scope : Scope) (use : Use) (position? : Option Position) (e : Expr) :
    Except Error Cell :=
  Cell.build (scope.bind use (scope.bodyBelow use scope.declarations.length) position?) e

end Scope

end Stimulus
