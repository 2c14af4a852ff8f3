import Stimulus.Cell.Step
import Stimulus.Cell.Build

/-!
# Models

A model holds the variables of a forest with their cells, in the order of declaration, the source
that all of them draw from, and the number of completed cycles.
-/
namespace Stimulus

open Stimulus.Random

structure Model where
  scope : Scope
  cells : Array Cell
  source : Source
  cycle : Nat := 0

namespace Model

def declarations (m : Model) : List Declaration := m.scope.declarations

def names (m : Model) : List String := m.declarations.map (·.name)

/-- The readings of the last steps, in the order of declaration. -/
def readings (m : Model) : List Reading := m.cells.toList.map (·.reading)

/-- The place of a variable, or the fault of a name that no variable has. -/
def indexOf (m : Model) (name : String) : Except Fault Nat :=
  match m.scope.index? name with
  | some index => .ok index
  | none => .error (.unknownVariable name)

/-- The declaration of a variable. -/
def declaration (m : Model) (name : String) : Except Fault Declaration := do
  let index ← m.indexOf name
  match m.declarations[index]? with
  | some d => .ok d
  | none => .error (.unknownVariable name)

/-- The last reading of a variable: zero and not done before its first step. -/
def reading (m : Model) (name : String) : Except Fault Reading := do
  let index ← m.indexOf name
  match m.cells[index]? with
  | some cell => .ok cell.reading
  | none => .error (.unknownVariable name)

/-- What the steps of the model's variables share. -/
def world (m : Model) : World := { cells := m.cells, source := m.source }

/-- Starts the random stream of another seed. The variables keep their state. -/
def reseed (m : Model) (seed : Int) : Except Fault Model := do
  return { m with source := ← m.source.reseed seed }

/-- Puts every variable back to the state before its first step. The random stream goes on. -/
def reset (m : Model) : Model := { m with cells := m.cells.map (·.reset), cycle := 0 }

end Model

end Stimulus
