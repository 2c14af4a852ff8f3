import Mathlib.Data.List.Basic
import Stimulus.Cell.Step

/-!
# Cells as trees

Induction over cells, with all members of a choice at once, and the leaves of a cell. The leaves
tell which variables a cell reads and steps; they include those of copies at any depth.
-/
namespace Stimulus

@[simp] theorem Chooser.reset_reset (chooser : Chooser) : chooser.reset.reset = chooser.reset := by
  cases chooser <;> rfl

namespace Cell

/-- Induction over a cell and everything below it. -/
@[elab_as_elim, induction_eliminator]
theorem induct {motive : Cell → Prop}
    (leaf : ∀ l r, motive (leaf l r))
    (copy : ∀ ref name body r, motive body → motive (copy ref name body r))
    (range : ∀ min max r, motive min → motive max → motive (range min max r))
    (sequence : ∀ first last increment p r, motive first → motive last → motive increment →
      motive (sequence first last increment p r))
    (choice : ∀ chooser members r, (∀ c ∈ members, motive c) → motive (choice chooser members r))
    (unary : ∀ op operand r, motive operand → motive (unary op operand r))
    (binary : ∀ op left right r, motive left → motive right → motive (binary op left right r))
    (c : Cell) : motive c :=
  @Cell.rec motive (fun cells => ∀ c ∈ cells, motive c) leaf copy range sequence choice unary
    binary (by simp) (fun _ _ hc hcells => List.forall_mem_cons.mpr ⟨hc, hcells⟩) c

mutual

/-- The leaves of a cell, those of copies included. -/
def leaves : Cell → List Leaf
  | leaf l _ => [l]
  | copy _ _ body _ => body.leaves
  | range min max _ => min.leaves ++ max.leaves
  | sequence first last increment _ _ => first.leaves ++ last.leaves ++ increment.leaves
  | choice _ members _ => memberLeaves members
  | unary _ operand _ => operand.leaves
  | binary _ left right _ => left.leaves ++ right.leaves

def memberLeaves : List Cell → List Leaf
  | [] => []
  | c :: rest => c.leaves ++ memberLeaves rest

end

theorem memberLeaves_eq_flatMap (cells : List Cell) :
    memberLeaves cells = cells.flatMap leaves := by
  induction cells with
  | nil => rfl
  | cons c rest ih => simp [memberLeaves, ih]

/-- A reset keeps every leaf in its place. -/
@[simp] theorem leaves_reset (c : Cell) : c.reset.leaves = c.leaves := by
  induction c with
  | leaf l r => rfl
  | copy ref name body r ih => simpa only [reset, leaves] using ih
  | range min max r ihMin ihMax => simp only [reset, leaves, ihMin, ihMax]
  | sequence first last increment p r ihFirst ihLast ihIncrement =>
    simp only [reset, leaves, ihFirst, ihLast, ihIncrement]
  | choice chooser members r ih =>
    simp only [reset, leaves, memberLeaves_eq_flatMap, resetMembers_eq_map, List.flatMap_map]
    exact List.flatMap_congr ih
  | unary op operand r ih => simpa only [reset, leaves] using ih
  | binary op left right r ihLeft ihRight => simp only [reset, leaves, ihLeft, ihRight]

mutual

/-- The cell and everything below it, copies included. -/
def walk : Cell → List Cell
  | leaf l r => [leaf l r]
  | copy ref name body r => copy ref name body r :: body.walk
  | range min max r => range min max r :: (min.walk ++ max.walk)
  | sequence first last increment p r =>
    sequence first last increment p r :: (first.walk ++ last.walk ++ increment.walk)
  | choice chooser members r => choice chooser members r :: walkMembers members
  | unary op operand r => unary op operand r :: operand.walk
  | binary op left right r => binary op left right r :: (left.walk ++ right.walk)

def walkMembers : List Cell → List Cell
  | [] => []
  | c :: rest => c.walk ++ walkMembers rest

end

theorem walkMembers_eq_flatMap (cells : List Cell) : walkMembers cells = cells.flatMap walk := by
  induction cells with
  | nil => rfl
  | cons c rest ih => simp [walkMembers, ih]

theorem walk_eq (c : Cell) : c.walk = c :: c.children.flatMap walk := by
  cases c <;> simp [walk, children, walkMembers_eq_flatMap]

theorem mem_walk_self (c : Cell) : c ∈ c.walk := by
  rw [walk_eq]
  exact List.mem_cons_self

theorem mem_walk_of_child {c child node : Cell} (h : child ∈ c.children)
    (hnode : node ∈ child.walk) : node ∈ c.walk := by
  rw [walk_eq]
  exact List.mem_cons_of_mem _ (List.mem_flatMap.mpr ⟨child, h, hnode⟩)

theorem children_reset (c : Cell) : c.reset.children = c.children.map reset := by
  cases c <;> simp [reset, children, resetMembers_eq_map]

/-- Induction over a cell by all cells directly below it. -/
theorem induct_children {motive : Cell → Prop}
    (hcell : ∀ c, (∀ child ∈ c.children, motive child) → motive c) (c : Cell) : motive c := by
  induction c with
  | leaf l r => exact hcell _ (by simp [children])
  | copy ref name body r ih => exact hcell _ (by simpa [children] using ih)
  | range min max r ihMin ihMax => exact hcell _ (by simp [children, ihMin, ihMax])
  | sequence first last increment p r ihFirst ihLast ihIncrement =>
    exact hcell _ (by simp [children, ihFirst, ihLast, ihIncrement])
  | choice chooser members r ih => exact hcell _ ih
  | unary op operand r ih => exact hcell _ (by simpa [children] using ih)
  | binary op left right r ihLeft ihRight => exact hcell _ (by simp [children, ihLeft, ihRight])

theorem mem_walk_trans {c inner node : Cell} (hinner : inner ∈ c.walk) (hnode : node ∈ inner.walk) :
    node ∈ c.walk := by
  induction c using induct_children with
  | hcell c ih =>
    rw [walk_eq, List.mem_cons, List.mem_flatMap] at hinner
    obtain rfl | ⟨child, hchild, hmem⟩ := hinner
    · exact hnode
    · exact mem_walk_of_child hchild (ih child hchild hmem)

/-- The leaves of a cell are its nodes without cells below them. -/
theorem mem_leaves_of_mem_walk {c : Cell} {l : Leaf} {r : Report} (h : leaf l r ∈ c.walk) :
    l ∈ c.leaves := by
  induction c with
  | leaf l' r' => simp_all [walk, leaves]
  | copy ref name body r' ih => exact ih (by simpa [walk] using h)
  | range min max r' ihMin ihMax =>
    simp only [walk, List.mem_cons, List.mem_append, reduceCtorEq, false_or] at h
    exact List.mem_append.mpr (h.imp ihMin ihMax)
  | sequence first last increment p r' ihFirst ihLast ihIncrement =>
    simp only [walk, List.mem_cons, List.mem_append, reduceCtorEq, false_or] at h
    simp only [leaves, List.mem_append]
    exact h.imp (Or.imp ihFirst ihLast) ihIncrement
  | choice chooser members r' ih =>
    simp only [walk, walkMembers_eq_flatMap, List.mem_cons, List.mem_flatMap, reduceCtorEq,
      false_or] at h
    obtain ⟨c, hc, hmem⟩ := h
    rw [leaves, memberLeaves_eq_flatMap]
    exact List.mem_flatMap.mpr ⟨c, hc, ih c hc hmem⟩
  | unary op operand r' ih => exact ih (by simpa [walk] using h)
  | binary op left right r' ihLeft ihRight =>
    simp only [walk, List.mem_cons, List.mem_append, reduceCtorEq, false_or] at h
    exact List.mem_append.mpr (h.imp ihLeft ihRight)

/-- Every leaf of a cell is a node of it. -/
theorem exists_node_of_mem_leaves {c : Cell} {l : Leaf} (h : l ∈ c.leaves) :
    ∃ r, leaf l r ∈ c.walk := by
  induction c using induct_children with
  | hcell c ih =>
    have hchild : ∀ child ∈ c.children, l ∈ child.leaves → ∃ r, leaf l r ∈ c.walk := by
      intro child hchild hl
      obtain ⟨r, hr⟩ := ih child hchild hl
      exact ⟨r, mem_walk_of_child hchild hr⟩
    cases c with
    | leaf l' r =>
      obtain rfl : l = l' := by simpa [leaves] using h
      exact ⟨r, mem_walk_self _⟩
    | copy ref name body r => exact hchild body (by simp [children]) h
    | unary op operand r => exact hchild operand (by simp [children]) h
    | range min max r | binary op min max r =>
      rw [leaves, List.mem_append] at h
      obtain h | h := h <;> exact hchild _ (by simp [children]) h
    | sequence first last increment p r =>
      simp only [leaves, List.mem_append] at h
      obtain (h | h) | h := h <;> exact hchild _ (by simp [children]) h
    | choice chooser members r =>
      rw [leaves, memberLeaves_eq_flatMap] at h
      obtain ⟨child, hmem, hl⟩ := List.mem_flatMap.mp h
      exact hchild child hmem hl

/-- A reset keeps the shape of a cell. -/
theorem walk_reset (c : Cell) : c.reset.walk = c.walk.map reset := by
  induction c using induct_children with
  | hcell c ih =>
    rw [walk_eq, walk_eq c, children_reset, List.map_cons, List.flatMap_map, List.map_flatMap]
    rw [List.flatMap_congr ih]

/-- A reset keeps the expression of a cell. -/
@[simp] theorem expr_reset (c : Cell) : c.reset.expr = c.expr := by
  induction c with
  | leaf l r | copy ref name body r => rfl
  | range min max r ihMin ihMax => simp only [reset, expr, ihMin, ihMax]
  | sequence first last increment p r ihFirst ihLast ihIncrement =>
    simp only [reset, expr, ihFirst, ihLast, ihIncrement]
  | choice chooser members r ih =>
    have hmembers : memberExprs (resetMembers members) = memberExprs members := by
      rw [memberExprs_eq_map, memberExprs_eq_map, resetMembers_eq_map, List.map_map]
      exact List.map_congr_left ih
    rw [reset, expr, expr, hmembers]
    cases chooser <;> rfl
  | unary op operand r ih => simp only [reset, expr, ih]
  | binary op left right r ihLeft ihRight => simp only [reset, expr, ihLeft, ihRight]

@[simp] theorem reset_reset (c : Cell) : c.reset.reset = c.reset := by
  induction c with
  | leaf l r => rfl
  | copy ref name body r ih => simp only [reset, ih]
  | range min max r ihMin ihMax => simp only [reset, ihMin, ihMax]
  | sequence first last increment p r ihFirst ihLast ihIncrement =>
    simp only [reset, ihFirst, ihLast, ihIncrement]
  | choice chooser members r ih =>
    have hmembers : resetMembers (resetMembers members) = resetMembers members := by
      rw [resetMembers_eq_map, resetMembers_eq_map, List.map_map]
      exact List.map_congr_left ih
    simp only [reset, hmembers, Chooser.reset_reset]
  | unary op operand r ih => simp only [reset, ih]
  | binary op left right r ihLeft ihRight => simp only [reset, ihLeft, ihRight]

variable {advance : Nat → World → Outcome × World}

/-- The member at a place is stepped and all others stay as they are. -/
theorem stepMember_eq (members : List Cell) (i : Nat) (w : World) :
    stepMember advance members i w =
      match members[i]? with
      | none => ⟨.error (.fault .noSuchMember), members, w⟩
      | some c =>
        let s := c.step advance w
        ⟨s.outcome, members.set i s.after, s.world⟩ := by
  induction members generalizing i with
  | nil => simp [stepMember]
  | cons c rest ih =>
    cases i with
    | zero => simp [stepMember]
    | succ i =>
      simp only [stepMember, ih, List.getElem?_cons_succ]
      cases rest[i]? <;> simp

end Cell

end Stimulus
