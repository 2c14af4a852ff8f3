import Stimulus.Check
import Stimulus.Model.Basic

/-!
# Cycles

A cycle steps every variable once, in the order of declaration. If a variable fails, the cycle ends
there: the variables behind it are not stepped, and the cycle is not counted. Besides cycles, an
expression can be evaluated once on cells of its own; the model is the same afterwards.
-/
namespace Stimulus

open Stimulus.Random Stimulus.Sampling

/-- The error of a variable that failed. Evaluation errors tell its name and its position. -/
def Declaration.error (d : Declaration) : Failure → Error
  | .cause cause =>
    .evaluation { cause, variableName? := some d.name, position? := d.position? }
  | .fault f => .fault f

namespace World

/-- Steps the variables from `index` on, up to the first that fails. -/
def stepAll (index : Nat) : List Declaration → World → Option Error × World
  | [], w => (none, w)
  | d :: rest, w =>
    let stepped := w.stepVariable index
    match stepped.1 with
    | .error failure => (some (d.error failure), stepped.2)
    | .ok _ => stepAll (index + 1) rest stepped.2

end World

namespace Model

/-- The outcome of an operation on a model, the model after it, and the refills on the way. -/
structure Result (α : Type) where
  outcome : Except Error α
  model : Model
  refills : Array Refill

/-- Steps every variable by one cycle. -/
def advance (m : Model) : Result Unit :=
  let stepped := m.world.stepAll 0 m.declarations
  let model := { m with cells := stepped.2.cells, source := stepped.2.source }
  match stepped.1 with
  | some error => { outcome := .error error, model, refills := stepped.2.refills }
  | none =>
    { outcome := .ok (), model := { model with cycle := m.cycle + 1 }
      refills := stepped.2.refills }

/-- The cells of an expression that is evaluated outside a cycle, where no variable may be
stepped. -/
def buildOnce (m : Model) (e : Expr) : Except Error Cell := do
  (e.check none none).mapError .ofConstruction
  m.scope.buildCell { allowNext := false } none e

/-- Evaluates an expression once. The draws come from the model's source, which is put back to its
place afterwards. -/
def evaluateOnce (m : Model) (e : Expr) : Result Int :=
  match m.buildOnce e with
  | .error error => { outcome := .error error, model := m, refills := #[] }
  | .ok cell =>
    let s := cell.step (World.stepBelow m.cells.size) m.world
    { outcome := (s.outcome.map (·.value)).mapError .ofFailure
      model := { m with
        cells := s.world.cells
        source := s.world.source.rewind m.source.position }
      refills := s.world.refills }

end Model

end Stimulus
