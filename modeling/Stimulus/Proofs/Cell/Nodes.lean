import Stimulus.Proofs.Cell.Build
import Stimulus.Proofs.Cell.Step

/-!
# The nodes of a cell after a step

A step of a cell steps some of the nodes below it, each in a world of its own, and leaves the others
alone. So what the step of a single node keeps is kept at all nodes.
-/
namespace Stimulus.Cell

variable {advance : Nat → World → Outcome × World}

/-- What a step of a tree does with one of its nodes: it leaves the node alone, or steps it. -/
inductive Moves (advance : Nat → World → Outcome × World) (c : Cell) : Cell → Prop
  | kept : Moves advance c c
  | stepped (w : World) : Moves advance c (c.step advance w).after

theorem moves_stepMember (members : List Cell) (i : Nat) (w : World) :
    List.Forall₂ (Moves advance) members (stepMember advance members i w).after := by
  induction members generalizing i with
  | nil => exact .nil
  | cons c rest ih =>
    cases i with
    | zero => exact .cons (.stepped w) (List.forall₂_same.mpr fun _ _ => .kept)
    | succ i => exact .cons .kept (ih i)

theorem children_step (c : Cell) (w : World) :
    List.Forall₂ (Moves advance) c.children (c.step advance w).after.children := by
  cases c with
  | leaf l r => exact .nil
  | copy ref name body r => exact .cons (.stepped w) .nil
  | range min max r =>
    simp only [step]
    split
    · exact .cons (.stepped w) (.cons .kept .nil)
    · split <;> exact .cons (.stepped w) (.cons (.stepped _) .nil)
  | sequence first last increment p r =>
    simp only [step]
    split
    · exact .cons (.stepped w) (.cons .kept (.cons .kept .nil))
    · split
      · exact .cons (.stepped w) (.cons (.stepped _) (.cons .kept .nil))
      · split
        · exact .cons (.stepped w) (.cons (.stepped _) (.cons (.stepped _) .nil))
        · split <;> exact .cons (.stepped w) (.cons (.stepped _) (.cons (.stepped _) .nil))
  | choice chooser members r =>
    simp only [step]
    split
    · exact List.forall₂_same.mpr fun _ _ => .kept
    · split <;> exact moves_stepMember members _ _
  | unary op operand r => exact .cons (.stepped w) .nil
  | binary op left right r =>
    simp only [step]
    split
    · exact .cons (.stepped w) (.cons .kept .nil)
    · split <;> exact .cons (.stepped w) (.cons (.stepped _) .nil)

/-- Every node after a step comes from a node before it. -/
theorem mem_walk_step {c : Cell} {w : World} {node : Cell}
    (h : node ∈ (c.step advance w).after.walk) : ∃ before ∈ c.walk, before.Moves advance node := by
  induction c using induct_children generalizing w with
  | hcell c ih =>
    rw [walk_eq, List.mem_cons, List.mem_flatMap] at h
    obtain rfl | ⟨child, hchild, hnode⟩ := h
    · exact ⟨c, c.mem_walk_self, .stepped w⟩
    · -- A node below comes from a node of a cell that was left alone or stepped in its turn.
      obtain ⟨before, hbefore, hmoves⟩ := exists_left_of_forall₂ (c.children_step w) child hchild
      cases hmoves with
      | kept => exact ⟨node, mem_walk_of_child hbefore hnode, .kept⟩
      | stepped v =>
        obtain ⟨inner, hinner, hmoves⟩ := ih before hbefore hnode
        exact ⟨inner, mem_walk_of_child hbefore hinner, hmoves⟩

theorem forall_walk_iff {Q : Cell → Prop} {c : Cell} :
    (∀ node ∈ c.walk, Q node) ↔ Q c ∧ ∀ child ∈ c.children, ∀ node ∈ child.walk, Q node := by
  rw [walk_eq]
  simp only [List.forall_mem_cons, List.forall_mem_flatMap]

/-! ## Properties of single nodes -/

/-- A node before its first step. -/
def Fresh : Cell → Prop
  | choice chooser members r => chooser.Initial members.length ∧ r = {}
  | sequence _ _ _ p r => p = {} ∧ r = {}
  | node => node.report = {}

theorem hereditary_fresh (p : Leaf → Prop) : Hereditary p fun c => ∀ node ∈ c.walk, node.Fresh where
  leaf l _ := forall_walk_iff.mpr ⟨rfl, by simp [children]⟩
  copy ref name body hbody := forall_walk_iff.mpr ⟨rfl, by simpa [children] using hbody⟩
  range min max hmin hmax :=
    forall_walk_iff.mpr ⟨rfl, by simpa [children] using ⟨hmin, hmax⟩⟩
  sequence first last increment hfirst hlast hincrement :=
    forall_walk_iff.mpr ⟨⟨rfl, rfl⟩, by simpa [children] using ⟨hfirst, hlast, hincrement⟩⟩
  choice chooser members hchooser hmembers := forall_walk_iff.mpr ⟨⟨hchooser, rfl⟩, hmembers⟩
  unary op operand hoperand := forall_walk_iff.mpr ⟨rfl, by simpa [children] using hoperand⟩
  binary op left right hleft hright :=
    forall_walk_iff.mpr ⟨rfl, by simpa [children] using ⟨hleft, hright⟩⟩

/-- A property of single nodes that holds before the first step and that nothing breaks. -/
structure Lasting (Q : Cell → Prop) : Prop where
  fresh : ∀ {c}, c.Fresh → Q c
  reset : ∀ {c}, Q c → Q c.reset
  step : ∀ {c} advance w, Q c → Q (c.step advance w).after

namespace Lasting

variable {Q : Cell → Prop} {c : Cell}

theorem walk_step (hQ : Lasting Q) (h : ∀ node ∈ c.walk, Q node) (w : World) :
    ∀ node ∈ (c.step advance w).after.walk, Q node := by
  intro node hnode
  obtain ⟨before, hbefore, hmoves⟩ := mem_walk_step hnode
  cases hmoves with
  | kept => exact h node hbefore
  | stepped v => exact hQ.step advance v (h before hbefore)

theorem walk_reset (hQ : Lasting Q) (h : ∀ node ∈ c.walk, Q node) :
    ∀ node ∈ c.reset.walk, Q node := by
  intro node hnode
  rw [Cell.walk_reset, List.mem_map] at hnode
  obtain ⟨before, hbefore, rfl⟩ := hnode
  exact hQ.reset (h before hbefore)

end Lasting

end Stimulus.Cell
