import Stimulus.Proofs.Cell.Nodes
import Stimulus.Proofs.Model.Replay

/-!
# Properties of a model's nodes

What holds of every node before its first step, and is kept by steps and resets of single nodes,
holds of all nodes of a compiled model after any calls, also after calls that have failed, and in
the middle of a cycle.
-/
namespace Stimulus

variable {Q : Cell → Prop}

namespace World

/-- All nodes of the variables' cells have a property. -/
def Everywhere (Q : Cell → Prop) (w : World) : Prop :=
  ∀ (i : Nat) (c : Cell), w.cells[i]? = some c → ∀ node ∈ c.walk, Q node

theorem robust_everywhere (Q : Cell → Prop) : Robust (Everywhere Q) :=
  robust_cells fun cells =>
    ∀ (i : Nat) (c : Cell), cells[i]? = some c → ∀ node ∈ c.walk, Q node

theorem Everywhere.store {w : World} (hw : w.Everywhere Q) {cell : Cell}
    (hcell : ∀ node ∈ cell.walk, Q node) (index : Nat) : (w.store index cell).Everywhere Q := by
  intro i c hc
  rw [World.store, Array.getElem?_setIfInBounds] at hc
  by_cases heq : index = i
  · rw [if_pos heq] at hc
    split at hc
    · cases hc
      exact hcell
    · cases hc
  · rw [if_neg heq] at hc
    exact hw i c hc

theorem Everywhere.stepBelow (hQ : Cell.Lasting Q) {w : World} (hw : w.Everywhere Q)
    (bound index : Nat) : (stepBelow bound index w).2.Everywhere Q := by
  refine stepBelow_keeps (robust_everywhere Q) ?_ index w hw
  intro index _ v cell hcell hv hstepped
  exact hstepped.store (hQ.walk_step (hv index cell hcell) v) index

end World

theorem Scope.Compiled.fresh {scope : Scope} {cells : Array Cell} (hc : scope.Compiled cells)
    {i : Nat} {c : Cell} (hcell : cells[i]? = some c) : ∀ node ∈ c.walk, node.Fresh := by
  obtain ⟨d, -, hbuild⟩ := hc.exists_build hcell
  exact buildCell_keeps (Cell.hereditary_fresh _) hbuild

namespace Model

theorem everywhere_perform (hQ : Cell.Lasting Q) {m : Model} (hm : m.world.Everywhere Q)
    (call : Call) : (m.perform call).2.world.Everywhere Q := by
  cases call with
  | advance =>
    obtain ⟨-, hcells, -⟩ := m.model_advance
    have hafter : (m.world.stepAll 0 m.declarations).2.Everywhere Q :=
      World.stepAll_keeps (fun index _ hv => hv.stepBelow hQ (index + 1) index) _ 0 _ hm
    rw [perform, World.Everywhere, world, hcells]
    exact hafter
  | once e =>
    rw [perform_once]
    exact hm
  | seed value =>
    simp only [perform]
    split
    · rename_i n hn
      obtain ⟨word, -, rfl⟩ := reseed_eq_ok hn
      exact hm
    · exact hm
  | reset =>
    intro i c hc
    simp only [perform, world, reset, Array.getElem?_map] at hc
    obtain ⟨before, hbefore, rfl⟩ := Option.map_eq_some_iff.mp hc
    exact hQ.walk_reset (hm i before hbefore)

/-- A lasting property of nodes holds in every state of a compiled model. -/
theorem everywhere_after (hQ : Cell.Lasting Q) {settings : Settings} {forest : Forest} {m : Model}
    (hm : compile settings forest = .ok m) (calls : List Call) :
    (m.after calls).world.Everywhere Q := by
  obtain ⟨hcompiled, -⟩ := compile_eq_ok hm
  have hstart : m.world.Everywhere Q :=
    fun i c hcell node hnode => hQ.fresh (hcompiled.fresh hcell node hnode)
  exact after_keeps (P := fun n => n.world.Everywhere Q)
    (fun _ call hn => everywhere_perform hQ hn call) m calls hstart

/-- The worlds that a model comes to: between any calls, and within a call, where variables have
been stepped, some of them without success, and numbers have been drawn. -/
inductive Reaches (m : Model) : World → Prop
  | called (calls : List Call) : Reaches m (m.after calls).world
  | stepped {w : World} (bound index : Nat) (h : Reaches m w) :
      Reaches m (World.stepBelow bound index w).2
  | drawn {w v : World} (hdraws : w.Draws v) (h : Reaches m w) : Reaches m v

theorem Reaches.everywhere (hQ : Cell.Lasting Q) {settings : Settings} {forest : Forest} {m : Model}
    (hm : compile settings forest = .ok m) {w : World} (h : m.Reaches w) : w.Everywhere Q := by
  induction h with
  | called calls => exact everywhere_after hQ hm calls
  | stepped bound index _ ih => exact ih.stepBelow hQ bound index
  | drawn hdraws _ ih => exact World.robust_everywhere Q hdraws ih

theorem Reaches.initialCells {m : Model} {w : World} (h : m.Reaches w) :
    w.initialCells = m.world.initialCells := by
  induction h with
  | called calls => exact (m.sameOrigin_after calls).cells
  | stepped bound index _ ih => rw [World.initialCells_stepBelow, ih]
  | @drawn w v hdraws _ ih => exact (World.robust_initialCells m.world hdraws ih)

end Model

end Stimulus
