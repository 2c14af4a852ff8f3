import Mathlib.Logic.Relation
import Stimulus.Proofs.Model.Backward
import Stimulus.Proofs.Model.Replay
import Stimulus.Proofs.Scope.Copies

/-!
# What a step writes

A step of a variable changes the variable, the variables that its cells step, inside copies too, the
variables that the cells of those step, and so on. All others stay as they are, with their private
copies, wherever the step fails. A reference that reads a variable does not change it, and neither
does a copy of it: what the copy steps was declared before the variable that is copied.
-/
namespace Stimulus

/-- The variable that a leaf steps. -/
def Leaf.driven? : Leaf → Option Nat
  | next _ _ index => some index
  | _ => none

namespace Cell

/-- The variables that the leaves of a cell step, those of copies included. -/
def driven (c : Cell) : List Nat := c.leaves.filterMap Leaf.driven?

@[simp] theorem driven_reset (c : Cell) : c.reset.driven = c.driven := by
  simp only [driven, leaves_reset]

theorem mem_driven_iff {c : Cell} {k : Nat} :
    k ∈ c.driven ↔ ∃ ref name, .next ref name k ∈ c.leaves := by
  rw [driven, List.mem_filterMap]
  constructor
  · rintro ⟨l, hl, hk⟩
    cases l with
    | next ref name index =>
      cases hk
      exact ⟨ref, name, hl⟩
    | literal | item | constant | enumeration | read => cases hk
  · rintro ⟨ref, name, hl⟩
    exact ⟨_, hl, rfl⟩

/-- The variable that a reference uses without stepping it: it reads the variable, or it is a copy
of it. -/
def spared? : Cell → Option String
  | leaf (.read _ name _) _ | copy _ name _ _ => some name
  | _ => none

end Cell

/-- A variable drives another one if a leaf of its cells, be it inside a copy, steps it. -/
def Drives (cells : Array Cell) (i j : Nat) : Prop := ∃ c, cells[i]? = some c ∧ j ∈ c.driven

namespace World

/-- Only what a reset keeps of the cells decides which variables drive which. -/
theorem drives_of_initialCells {w v : World} (h : v.initialCells = w.initialCells) {i j : Nat}
    (hdrives : Drives v.cells i j) : Drives w.cells i j := by
  obtain ⟨c, hcell, hj⟩ := hdrives
  obtain ⟨c', hcell', hreset⟩ := exists_cell_of_initialCells h hcell
  rw [← c.driven_reset, ← hreset, c'.driven_reset] at hj
  exact ⟨c', hcell', hj⟩

/-- A step of a cell leaves a variable alone if the steps of all variables that the cell drives do,
in whatever state they are reached. -/
theorem cells_step_of_driven {bound j : Nat} (c : Cell) (w : World)
    (h : ∀ k ∈ c.driven, k < bound → ∀ v : World, v.initialCells = w.initialCells →
      (stepVariable k v).2.cells[j]? = v.cells[j]?) :
    (c.step (stepBelow bound) w).world.cells[j]? = w.cells[j]? := by
  refine (c.step_keeps (I := fun v => v.initialCells = w.initialCells ∧ v.cells[j]? = w.cells[j]?)
    (robust_cells fun cells => cells.map (·.reset) = w.initialCells ∧ cells[j]? = w.cells[j]?) w
    ?_ ⟨rfl, rfl⟩).2
  rintro ref name k hleaf v ⟨hinitial, hkept⟩
  refine ⟨(initialCells_stepBelow bound k v).trans hinitial, ?_⟩
  by_cases hk : k < bound
  · rw [stepBelow_of_lt hk, h k (Cell.mem_driven_iff.mpr ⟨ref, name, hleaf⟩) hk v hinitial, hkept]
  · rw [stepBelow_of_le (by omega), hkept]

/-- A step of a variable leaves every variable alone that it does not drive, directly or through
others. The induction is on the place of the variable, since only variables before it are
stepped. -/
theorem cells_stepVariable_of_not_driven {i j : Nat} {w : World}
    (h : ¬Relation.ReflTransGen (Drives w.cells) i j) :
    (stepVariable i w).2.cells[j]? = w.cells[j]? := by
  induction i using Nat.strongRecOn generalizing w with
  | ind i ih =>
    cases hcell : w.cells[i]? with
    | none => simp only [stepVariable, stepBelow, if_pos, hcell]
    | some c =>
      have hne : i ≠ j := by
        rintro rfl
        exact h .refl
      rw [stepVariable_eq hcell, store, Array.getElem?_setIfInBounds_ne hne]
      refine cells_step_of_driven c w fun k hk hlt v hv => ih k hlt fun hpath => h ?_
      exact .head ⟨c, hcell, hk⟩
        (Relation.ReflTransGen.mono (fun _ _ => drives_of_initialCells hv) _ _ hpath)

end World

/-- A copy of a variable drives variables before that one only. -/
theorem Scope.Compiled.driven_lt {scope : Scope} {cells : Array Cell} (hc : scope.Compiled cells)
    {i a : Nat} {c : Cell} (hcell : cells[i]? = some c) {ref : Identifier} {name : String}
    {body : Cell} {r : Report} (hcopy : .copy ref name body r ∈ c.walk)
    (ha : scope.index? name = some a) : ∀ k ∈ body.driven, k < a := by
  intro k hk
  obtain ⟨d, -, hbuild⟩ := hc.exists_build hcell
  obtain ⟨j, hindex, hbody⟩ := copy_of_mem_walk hbuild hcopy
  obtain ⟨hname, -⟩ := index?_eq_some_of_upTo hindex
  rw [ha] at hname
  cases hname
  obtain ⟨ref', name', hleaf⟩ := Cell.mem_driven_iff.mp hk
  obtain ⟨r', hnode⟩ := Cell.exists_node_of_mem_leaves hleaf
  exact hc.next_lt rfl hbody hnode

namespace Model

variable {settings : Settings} {forest : Forest} {m : Model}

/-- A step of a reference that reads a variable or is a copy of it leaves the variable as it is. -/
theorem cells_step_of_spared (hm : compile settings forest = .ok m) {w : World}
    (hw : w.initialCells = m.world.initialCells) {i : Nat} {c : Cell} (hcell : w.cells[i]? = some c)
    {node : Cell} (hnode : node ∈ c.walk) {name : String} (hspared : node.spared? = some name)
    {a : Nat} (ha : m.scope.index? name = some a) (bound : Nat) (v : World) :
    (node.step (World.stepBelow bound) v).world.cells[a]? = v.cells[a]? := by
  unfold Cell.spared? at hspared
  split at hspared
  · rfl
  · rename_i ref name' body r
    cases hspared
    obtain ⟨hcompiled, -⟩ := compile_eq_ok hm
    obtain ⟨built, hbuilt, hreset⟩ := World.exists_cell_of_initialCells hw hcell
    rw [hcompiled.reset_cell hbuilt] at hreset
    have hcopy : .copy ref name body.reset {} ∈ built.walk := by
      rw [hreset, Cell.walk_reset]
      exact List.mem_map.mpr ⟨_, hnode, rfl⟩
    -- The variables that the copy drives are before the copied one, and a step changes none behind.
    refine World.cells_step_of_driven body v fun k hk _ u _ => ?_
    have hlt : k < a := hcompiled.driven_lt hbuilt hcopy ha k (by rwa [Cell.driven_reset])
    exact World.cells_stepBelow_of_le (k + 1) k u hlt
  · cases hspared

/-- Whatever state the variables of a compiled model are in, a step of one of them, whether it
succeeds or fails, changes only that variable and those that it drives, directly or through others:
of all others it changes no cell, those of their private copies included. And no step of a reference
that reads a variable, or is a copy of it, changes a cell of that variable, wherever the reference
stands and whatever else the variables around it step. -/
theorem writes_driven_only (hm : compile settings forest = .ok m) {w : World}
    (hw : w.initialCells = m.world.initialCells) :
    (∀ i j, ¬Relation.ReflTransGen (Drives m.cells) i j →
      (World.stepVariable i w).2.cells[j]? = w.cells[j]?) ∧
    ∀ (i : Nat) (c : Cell), w.cells[i]? = some c → ∀ node ∈ c.walk, ∀ name a,
      node.spared? = some name → m.scope.index? name = some a → ∀ v : World,
        (node.step (World.stepBelow i) v).world.cells[a]? = v.cells[a]? := by
  constructor
  · intro i j h
    refine World.cells_stepVariable_of_not_driven fun hpath => h ?_
    exact Relation.ReflTransGen.mono (fun _ _ => World.drives_of_initialCells hw) _ _ hpath
  · intro i c hcell node hnode name a hspared ha v
    exact cells_step_of_spared hm hw hcell hnode hspared ha i v

/-- A step that fails inside a copy, behind a step of the first variable there. The variable that is
copied, and the one that is read, stay as they are; the first one does not. -/
theorem writes_driven_only_copy :
    let forest : Forest := { declarations := [
      ⟨"a", .pattern [.literal 1, .literal 2, .literal 3, .literal 0], none⟩,
      ⟨"b", .binary .div (.literal 6) (.reference { path := "a", access? := some .next }), none⟩,
      ⟨"c", .pattern [.literal 7, .literal 8], none⟩,
      ⟨"d", .binary .add (.reference { path := "c" })
        (.reference { path := "b", access? := some .copy }), none⟩] }
    ∃ m, compile {} forest = .ok m ∧
      let w := (m.after [.advance]).world
      let after := (w.stepVariable 3).2
      (w.stepVariable 3).1.toOption = none ∧
        w.cells[0]?.map (·.reading) = some ⟨3, false⟩ ∧
        after.cells[0]?.map (·.reading) = some ⟨0, true⟩ ∧
        after.cells[1]? = w.cells[1]? ∧ after.cells[2]? = w.cells[2]? ∧
        ∃ c ∈ w.cells[3]?, ∃ node ∈ c.walk, node.spared? = some "b" ∧
          (node.step (World.stepBelow 3) w).world.cells[1]? = w.cells[1]? := by
  intro forest
  obtain ⟨m, hm, hdriven, hindex, hfails, hbefore, hafter, c, hcell, node, hnode, hspared⟩ :
      ∃ m, compile {} forest = .ok m ∧ (∀ c ∈ m.cells, ∀ k ∈ c.driven, k = 0) ∧
        m.scope.index? "b" = some 1 ∧
        ((m.after [.advance]).world.stepVariable 3).1.toOption = none ∧
        (m.after [.advance]).world.cells[0]?.map (·.reading) = some ⟨3, false⟩ ∧
        ((m.after [.advance]).world.stepVariable 3).2.cells[0]?.map (·.reading) =
          some ⟨0, true⟩ ∧
        ∃ c ∈ (m.after [.advance]).world.cells[3]?, ∃ node ∈ c.walk, node.spared? = some "b" :=
    ⟨_, rfl, by decide +kernel, by decide +kernel, by decide +kernel, by decide +kernel,
      by decide +kernel, by decide +kernel⟩
  have hinitial : (m.after [.advance]).world.initialCells = m.world.initialCells :=
    (m.sameOrigin_after [.advance]).cells
  obtain ⟨hwrites, hspares⟩ := writes_driven_only hm hinitial
  have hundriven {j : Nat} (h : j ≠ 3) (h' : j ≠ 0) :
      ¬Relation.ReflTransGen (Drives m.cells) 3 j := by
    intro hpath
    obtain heq | ⟨k, -, c, hc, hj⟩ := hpath.cases_tail
    · exact h heq
    · exact h' (hdriven c (Array.mem_of_getElem? hc) j hj)
  exact ⟨m, hm, hfails, hbefore, hafter, hwrites 3 1 (hundriven (by decide) (by decide)),
    hwrites 3 2 (hundriven (by decide) (by decide)), c, hcell, node, hnode, hspared,
    hspares 3 c hcell node hnode "b" 1 hspared hindex _⟩

end Model

end Stimulus
