import Stimulus.Proofs.Cell.Events
import Stimulus.Proofs.Model.Insertion

/-!
# Reads of a cycle

The events of a whole cycle. In a model without a reference that steps a variable, a cycle steps
every variable that it comes to once, in the order of declaration. A variable that has been stepped
does not change any more in the cycle; so whatever reads it then, wherever it stands, reads what the
variable reports at the end.
-/
namespace Stimulus

/-- Cells of variables none of which steps a variable. -/
def StepNone (cells : Array Cell) : Prop := ∀ c ∈ cells, c.StepsNone

instance (cells : Array Cell) : Decidable (StepNone cells) :=
  inferInstanceAs (Decidable (∀ c ∈ cells, c.StepsNone))

theorem StepNone.cell {cells : Array Cell} (h : StepNone cells) {i : Nat} {c : Cell}
    (hcell : cells[i]? = some c) : c.StepsNone :=
  h c (Array.mem_of_getElem? hcell)

namespace World

/-- The events of a step of the variable at `index`, which is below `bound`. -/
def eventsBelow : (bound index : Nat) → World → List Event
  | 0, _, _ => []
  | bound + 1, index, w =>
    if index = bound then
      match w.cells[index]? with
      | none => []
      | some cell => .stepped index :: cell.events (stepBelow bound) (eventsBelow bound) w
    else eventsBelow bound index w

/-- The events of stepping the variables from `index` on, up to the first that fails. -/
def eventsAll (index : Nat) : List Declaration → World → List Event
  | [], _ => []
  | _ :: rest, w =>
    let stepped := w.stepVariable index
    eventsBelow (index + 1) index w ++
      match stepped.1 with
      | .error _ => []
      | .ok _ => eventsAll (index + 1) rest stepped.2

/-- Only what a reset keeps of the cells decides whether they step a variable. -/
theorem stepNone_of_initialCells {w v : World} (h : v.initialCells = w.initialCells)
    (hw : StepNone w.cells) : StepNone v.cells := by
  intro c hc
  obtain ⟨i, hcell⟩ := Array.getElem?_of_mem hc
  obtain ⟨c', hcell', hreset⟩ := exists_cell_of_initialCells h hcell
  rw [← Cell.stepsNone_reset, ← hreset, Cell.stepsNone_reset]
  exact hw.cell hcell'

variable {w : World} {i : Nat}

/-- A step of a variable whose cells step none changes no other variable. -/
theorem cells_stepVariable_of_ne (hw : StepNone w.cells) {j : Nat} (hne : i ≠ j) :
    (stepVariable i w).2.cells[j]? = w.cells[j]? := by
  cases hcell : w.cells[i]? with
  | none => simp only [stepVariable, stepBelow, if_pos, hcell]
  | some c =>
    rw [stepVariable_eq hcell, store, Array.getElem?_setIfInBounds_ne hne]
    rw [((hw.cell hcell).draws w).cells]

theorem stepNone_stepVariable (hw : StepNone w.cells) : StepNone (stepVariable i w).2.cells :=
  stepNone_of_initialCells (initialCells_stepBelow (i + 1) i w) hw

/-- The variables before are not changed any more. -/
theorem cells_stepAll_of_lt (hw : StepNone w.cells) (declarations : List Declaration) {j : Nat}
    (hj : j < i) : (stepAll i declarations w).2.cells[j]? = w.cells[j]? := by
  induction declarations generalizing i w with
  | nil => rfl
  | cons d rest ih =>
    have hkept := cells_stepVariable_of_ne hw (Nat.ne_of_gt hj)
    cases hstep : (stepVariable i w).1 with
    | error failure =>
      rw [stepAll_cons_of_error hstep]
      exact hkept
    | ok x =>
      rw [stepAll_cons_of_ok hstep, ih (stepNone_stepVariable hw) (by omega)]
      exact hkept

end World

namespace Model

/-- The events of the next cycle. -/
def events (m : Model) : List Event := m.world.eventsAll 0 m.declarations

end Model

end Stimulus
