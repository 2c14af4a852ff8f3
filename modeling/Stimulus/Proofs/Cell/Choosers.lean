import Stimulus.Proofs.Cell.Nodes

/-!
# Invariants of choosers

A property of choosers that holds before the first step and that draws and resets keep holds of
every chooser in a cell, in every state that steps can lead to.
-/
namespace Stimulus

/-- A property of choosers over a number of members that nothing a cell does can break. A chooser
settles only where it has chosen one of its members. -/
structure Chooser.Invariant (P : Nat → Chooser → Prop) : Prop where
  initial : ∀ {count chooser}, chooser.Initial count → P count chooser
  reset : ∀ {count chooser}, P count chooser → P count chooser.reset
  select : ∀ {count chooser} (w : World), P count chooser → P count (chooser.select count w).2.1
  settle : ∀ {count chooser} (done : Bool), 0 < count → P count chooser →
    P count (chooser.settle count done).2

namespace Cell

variable {P : Nat → Chooser → Prop}

/-- All choosers in a cell have a property. -/
def AllChoosers (P : Nat → Chooser → Prop) (c : Cell) : Prop :=
  ∀ chooser members r, choice chooser members r ∈ c.walk → P members.length chooser

/-- A node whose chooser, if it has one, has a property. -/
def ChooserHas (P : Nat → Chooser → Prop) (node : Cell) : Prop :=
  ∀ chooser members r, node = choice chooser members r → P members.length chooser

theorem allChoosers_iff_walk {c : Cell} :
    c.AllChoosers P ↔ ∀ node ∈ c.walk, node.ChooserHas P := by
  constructor
  · rintro h _ hnode chooser members r rfl
    exact h chooser members r hnode
  · intro h chooser members r hnode
    exact h _ hnode chooser members r rfl

theorem AllChoosers.of_mem_walk {c node : Cell} (h : c.AllChoosers P) (hnode : node ∈ c.walk) :
    node.AllChoosers P :=
  fun chooser members r hmem => h chooser members r (mem_walk_trans hnode hmem)

theorem AllChoosers.choice {chooser : Chooser} {members : List Cell} {r : Report}
    (h : (choice chooser members r).AllChoosers P) : P members.length chooser :=
  h chooser members r (mem_walk_self _)

variable {advance : Nat → World → Outcome × World}

/-- A member can only be stepped where there is one. -/
theorem length_pos_of_stepMember {members : List Cell} {i : Nat} {w : World} {x : Reading}
    (h : (stepMember advance members i w).outcome = .ok x) : 0 < members.length := by
  cases members with
  | nil => cases h
  | cons c rest => exact Nat.succ_pos _

/-- Nothing breaks an invariant of choosers at any node. -/
theorem lasting_chooserHas (hP : Chooser.Invariant P) : Lasting (ChooserHas P) where
  fresh := by
    rintro c hfresh chooser members r rfl
    exact hP.initial hfresh.1
  reset := by
    rintro c hc chooser members r heq
    cases c with
    | choice chooser' members' r' =>
      cases heq
      rw [resetMembers_eq_map, List.length_map]
      exact hP.reset (hc chooser' members' r' rfl)
    | _ => cases heq
  step := by
    rintro c advance w hc chooser members r heq
    -- A reset keeps the kind of a node, and it does not see the step.
    have hkind : (c.step advance w).after.reset = c.reset := c.reset_step w
    rw [heq] at hkind
    cases c with
    | choice chooser' members' r' =>
      have hselected := hP.select w (hc chooser' members' r' rfl)
      have hlength (i : Nat) (v : World) :
          (stepMember advance members' i v).after.length = members'.length :=
        (moves_stepMember members' i v).length_eq.symm
      simp only [step] at heq
      split at heq
      · cases heq
        exact hselected
      · split at heq <;> cases heq <;> rw [hlength]
        · exact hselected
        · rename_i hx
          exact hP.settle _ (length_pos_of_stepMember hx) hselected
    | _ => cases hkind

end Cell

end Stimulus
