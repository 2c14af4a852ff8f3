import Stimulus.Proofs.Cell.Failure
import Stimulus.Proofs.Model.Compiled
import Stimulus.Proofs.Model.Stepping

/-!
# Backward references

In a compiled model every reference, inside copies too, goes to a variable that was declared before.
So the step of a variable, however it re-enters the cells of others, always finds them.
-/
namespace Stimulus

namespace Leaf

/-- The variable that a leaf reads or steps. -/
def target? : Leaf → Option Nat
  | read _ _ index | next _ _ index => some index
  | _ => none

theorem BoundIn.target_lt {scope : Scope} {use : Scope.Use} {l : Leaf} (h : l.BoundIn scope use)
    {j : Nat} (hj : l.target? = some j) : j < scope.declarations.length := by
  cases l with
  | read ref name index =>
    cases hj
    exact Scope.index?_lt h
  | next ref name index =>
    cases hj
    exact Scope.index?_lt h.2
  | _ => cases hj

end Leaf

/-- Cells of variables that refer to earlier variables only. -/
def Backward (cells : Array Cell) : Prop :=
  ∀ (i : Nat) (c : Cell), cells[i]? = some c → ∀ l ∈ c.leaves, ∀ j, l.target? = some j → j < i

theorem Scope.Compiled.backward {scope : Scope} {cells : Array Cell} (hc : scope.Compiled cells) :
    Backward cells := by
  intro i c hcell l hl j hj
  obtain ⟨d, -, hbuild⟩ := hc.exists_build hcell
  have hbound := boundIn_of_buildCell hbuild l hl
  have hlt := hbound.target_lt hj
  rw [declarations_upTo, List.length_take] at hlt
  omega

namespace World

/-- Worlds that a reset makes the same have cells that it makes the same. -/
theorem exists_cell_of_initialCells {w v : World} (h : v.initialCells = w.initialCells) {i : Nat}
    {c : Cell} (hcell : v.cells[i]? = some c) :
    ∃ c', w.cells[i]? = some c' ∧ c'.reset = c.reset := by
  have hinitial : (w.cells[i]?).map (·.reset) = some c.reset := by
    rw [← getElem?_initialCells, ← h, getElem?_initialCells, hcell, Option.map_some]
  exact Option.map_eq_some_iff.mp hinitial

/-- Only what a reset keeps of the cells decides whether they refer backward. -/
theorem backward_of_initialCells {w v : World} (h : v.initialCells = w.initialCells)
    (hw : Backward w.cells) : Backward v.cells := by
  intro i c hcell l hl j hj
  obtain ⟨c', hcell', hreset⟩ := exists_cell_of_initialCells h hcell
  refine hw i c' hcell' l ?_ j hj
  rwa [← Cell.leaves_reset, hreset, Cell.leaves_reset]

theorem size_of_initialCells {w v : World} (h : v.initialCells = w.initialCells) :
    v.cells.size = w.cells.size := by
  simpa [initialCells] using congrArg Array.size h

/-- Where references go backward, the bound on the variables that a step may step is never met. -/
theorem inReach_stepBelow {w : World} (hw : Backward w.cells) {bound index : Nat}
    (hindex : index < bound) (hbound : bound ≤ w.cells.size) {v : World}
    (hv : v.initialCells = w.initialCells) {failure : Failure}
    (h : (stepBelow bound index v).1 = .error failure) : failure.InReach := by
  induction bound generalizing index v failure with
  | zero => omega
  | succ bound ih =>
    rw [stepBelow] at h
    split at h
    · rename_i heq
      subst heq
      have hlt : index < v.cells.size := by
        rw [size_of_initialCells hv]
        omega
      rw [Array.getElem?_eq_getElem hlt] at h
      refine v.cells[index].inReach_step (I := fun u => u.initialCells = w.initialCells)
        (robust_initialCells w) v ?_ hv h
      intro l hl
      have hback := backward_of_initialCells hv hw index _ (Array.getElem?_eq_getElem hlt) l hl
      cases l with
      | read ref name j =>
        intro u hu
        have hj := hback j rfl
        rw [size_of_initialCells hu]
        omega
      | next ref name j =>
        intro u hu
        refine ⟨(initialCells_stepBelow index j u).trans hu, fun other hother => ?_⟩
        exact ih (hback j rfl) (by omega) hu hother
      | _ => trivial
    · exact ih (by omega) (by omega) hv h

end World

end Stimulus
