import Stimulus.Proofs.Cell.Step
import Stimulus.Model.Cycle

/-!
# Stepping variables

A step of a variable steps its cells and puts them back in its place. On the way it may step the
variables before it, but never those behind it. What draws keep, and what putting a stepped cell in
its place keeps, is kept by the step of a variable and by a cycle.
-/
namespace Stimulus

namespace World

/-- Puts the cell of a variable in its place. -/
def store (w : World) (index : Nat) (cell : Cell) : World :=
  { w with cells := w.cells.setIfInBounds index cell }

/-- The step of a variable that exists. -/
theorem stepVariable_eq {index : Nat} {w : World} {cell : Cell} (h : w.cells[index]? = some cell) :
    stepVariable index w =
      ((cell.step (stepBelow index) w).outcome,
        (cell.step (stepBelow index) w).world.store index
          (cell.step (stepBelow index) w).after) := by
  simp only [stepVariable, stepBelow, if_pos, h, store]

/-- The bound of a step does not matter, as long as the variable is below it. -/
theorem stepBelow_of_lt {bound index : Nat} (h : index < bound) (w : World) :
    stepBelow bound index w = stepVariable index w := by
  induction bound with
  | zero => omega
  | succ bound ih =>
    by_cases heq : index = bound
    · rw [stepVariable, heq]
    · rw [stepBelow, if_neg heq]
      exact ih (by omega)

theorem stepBelow_of_le {bound index : Nat} (h : bound ≤ index) (w : World) :
    stepBelow bound index w = (.error (.fault (.outOfReach index)), w) := by
  induction bound with
  | zero => rfl
  | succ bound ih =>
    rw [stepBelow, if_neg (by omega)]
    exact ih (by omega)

/-- What draws keep is kept by steps, if putting a stepped cell in its place keeps it too. -/
theorem stepBelow_keeps {I : World → Prop} {bound : Nat} (hdraw : Robust I)
    (hstore : ∀ index < bound, ∀ w cell, w.cells[index]? = some cell → I w →
      I (cell.step (stepBelow index) w).world →
      I ((cell.step (stepBelow index) w).world.store index (cell.step (stepBelow index) w).after))
    (index : Nat) (w : World) (hw : I w) : I (stepBelow bound index w).2 := by
  induction bound generalizing index w with
  | zero => exact hw
  | succ bound ih =>
    have hbelow := ih fun index h => hstore index (by omega)
    by_cases heq : index = bound
    · subst heq
      rw [stepBelow, if_pos rfl]
      split
      · exact hw
      · rename_i cell hcell
        exact hstore index (by omega) w cell hcell hw
          (cell.step_keeps hdraw w (fun _ _ j _ v hv => hbelow j v hv) hw)
    · rw [stepBelow, if_neg heq]
      exact hbelow index w hw

theorem stepAll_keeps {I : World → Prop} (hstep : ∀ index w, I w → I (stepVariable index w).2)
    (declarations : List Declaration) (index : Nat) (w : World) (hw : I w) :
    I (stepAll index declarations w).2 := by
  induction declarations generalizing index w with
  | nil => exact hw
  | cons d rest ih =>
    have hfirst := hstep index w hw
    simp only [stepAll]
    split
    · exact hfirst
    · exact ih (index + 1) _ hfirst

/-- The world's cells before their first step. -/
def initialCells (w : World) : Array Cell := w.cells.map (·.reset)

@[simp] theorem getElem?_initialCells (w : World) (index : Nat) :
    w.initialCells[index]? = (w.cells[index]?).map (·.reset) := by
  simp [initialCells]

theorem robust_initialCells (w : World) : Robust fun v => v.initialCells = w.initialCells :=
  robust_cells fun cells => cells.map (·.reset) = w.initialCells

theorem initialCells_store {w : World} {index : Nat} {cell : Cell}
    (h : w.initialCells[index]? = some cell.reset) :
    (w.store index cell).initialCells = w.initialCells := by
  refine Array.ext_getElem? fun j => ?_
  rw [getElem?_initialCells] at h
  simp only [getElem?_initialCells, store, Array.getElem?_setIfInBounds]
  split
  · rename_i heq
    subst heq
    obtain ⟨old, hold, hreset⟩ := Option.map_eq_some_iff.mp h
    obtain ⟨hlt, -⟩ := Array.getElem?_eq_some_iff.mp hold
    rw [if_pos hlt, hold, Option.map_some, Option.map_some, hreset]
  · rfl

/-- A step of a variable changes nothing in any cell that a reset does not forget. -/
theorem initialCells_stepBelow (bound index : Nat) (w : World) :
    (stepBelow bound index w).2.initialCells = w.initialCells := by
  refine stepBelow_keeps (I := fun v => v.initialCells = w.initialCells)
    (robust_initialCells w) ?_ index w rfl
  intro index _ v cell hcell hv hstepped
  rw [initialCells_store, hstepped]
  rw [hstepped, ← hv, getElem?_initialCells, hcell, Cell.reset_step, Option.map_some]

/-- The source after a step is further along the same stream. -/
theorem follows_stepBelow (bound index : Nat) (w : World) :
    w.source.Follows (stepBelow bound index w).2.source :=
  stepBelow_keeps (I := fun v => w.source.Follows v.source)
    (fun _ _ hdraws hv => hv.trans hdraws.source) (fun _ _ _ _ _ _ hv => hv) index w (.refl _)

/-- A step of a variable below a bound changes no variable from the bound on. -/
theorem cells_stepBelow_of_le (bound index : Nat) (w : World) {j : Nat} (h : bound ≤ j) :
    (stepBelow bound index w).2.cells[j]? = w.cells[j]? := by
  refine stepBelow_keeps (I := fun v => v.cells[j]? = w.cells[j]?)
    (robust_cells fun cells => cells[j]? = w.cells[j]?) ?_ index w rfl
  intro index hlt v cell _ _ hstepped
  rw [store, Array.getElem?_setIfInBounds_ne (by omega)]
  exact hstepped

theorem cells_step_of_le {bound j : Nat} (h : bound ≤ j) (cell : Cell) (w : World) :
    (cell.step (stepBelow bound) w).world.cells[j]? = w.cells[j]? := by
  refine cell.step_keeps (I := fun v => v.cells[j]? = w.cells[j]?)
    (robust_cells fun cells => cells[j]? = w.cells[j]?) w ?_ rfl
  intro _ _ i _ v hv
  rw [cells_stepBelow_of_le bound i v h]
  exact hv

/-- A variable that fails keeps its report. -/
theorem report_stepVariable_of_error {index : Nat} {w : World} {cell : Cell} {failure : Failure}
    (hcell : w.cells[index]? = some cell) (h : (stepVariable index w).1 = .error failure) :
    ∃ after, (stepVariable index w).2.cells[index]? = some after ∧ after.report = cell.report := by
  rw [stepVariable_eq hcell] at h ⊢
  refine ⟨(cell.step (stepBelow index) w).after, ?_, ?_⟩
  · have hkept := cells_step_of_le (Nat.le_refl index) cell w
    rw [hcell] at hkept
    obtain ⟨hlt, -⟩ := Array.getElem?_eq_some_iff.mp hkept
    rw [store, Array.getElem?_setIfInBounds_self_of_lt hlt]
  · have houtcome : (cell.step (stepBelow index) w).outcome = .error failure := h
    rw [Cell.report_step, houtcome, Report.settle]

end World

end Stimulus
