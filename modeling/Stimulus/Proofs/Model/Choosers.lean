import Stimulus.Proofs.Cell.Choosers
import Stimulus.Proofs.Model.Nodes

/-!
# Invariants of a model's choosers

What holds of every chooser before its first step, and is kept by draws and resets, holds of all
choosers of a compiled model after any calls, also after calls that have failed.
-/
namespace Stimulus

variable {P : Nat → Chooser → Prop}

namespace World

/-- All choosers in the cells of the variables have a property. -/
def AllChoosers (P : Nat → Chooser → Prop) (w : World) : Prop :=
  ∀ (i : Nat) (c : Cell), w.cells[i]? = some c → c.AllChoosers P

theorem allChoosers_iff_everywhere {w : World} :
    w.AllChoosers P ↔ w.Everywhere (Cell.ChooserHas P) :=
  forall₃_congr fun _ _ _ => Cell.allChoosers_iff_walk

theorem robust_allChoosers (P : Nat → Chooser → Prop) : Robust (AllChoosers P) :=
  robust_cells fun cells => ∀ (i : Nat) (c : Cell), cells[i]? = some c → c.AllChoosers P

theorem AllChoosers.stepBelow (hP : Chooser.Invariant P) {w : World} (hw : w.AllChoosers P)
    (bound index : Nat) : (stepBelow bound index w).2.AllChoosers P := by
  rw [allChoosers_iff_everywhere] at hw ⊢
  exact hw.stepBelow (Cell.lasting_chooserHas hP) bound index

end World

/-- An invariant of choosers holds in every state of a compiled model. -/
theorem Model.allChoosers_after (hP : Chooser.Invariant P) {settings : Settings} {forest : Forest}
    {m : Model} (hm : compile settings forest = .ok m) (calls : List Call) :
    (m.after calls).world.AllChoosers P :=
  World.allChoosers_iff_everywhere.mpr (everywhere_after (Cell.lasting_chooserHas hP) hm calls)

end Stimulus
