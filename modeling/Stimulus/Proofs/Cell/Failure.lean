import Stimulus.Proofs.Cell.Step

/-!
# How steps fail

Draws, operators and choices fail for reasons of their own. That a variable is out of reach is not
one of them: a step can fail so only at a leaf that reads or steps a variable.
-/
namespace Stimulus

open Stimulus.Random Stimulus.Sampling

/-- A failure that is not about a variable out of reach. -/
def Failure.InReach (failure : Failure) : Prop := ∀ index, failure ≠ .fault (.outOfReach index)

@[simp] theorem Failure.inReach_cause (cause : EvaluationCause) :
    (Failure.cause cause).InReach := by
  simp [InReach]

@[simp] theorem Failure.inReach_fault (fault : Fault) :
    (Failure.fault fault).InReach ↔ ∀ index, fault ≠ .outOfReach index := by
  simp [InReach]

namespace Random.Source

theorem inReach_uniformInt {lo hi : Int} {s : Source} {fault : Fault}
    (h : s.uniformInt lo hi = .error fault) : (Failure.fault fault).InReach := by
  obtain ⟨-, rfl⟩ | hbounds := uniformInt_eq_error h
  · simp
  · unfold boundsFault? at hbounds
    intro index heq
    cases heq
    split at hbounds
    · split at hbounds <;> cases hbounds
    · split at hbounds
      · cases hbounds
      · split at hbounds <;> cases hbounds

theorem inReach_uniformIndex {count : Int} {s : Source} {fault : Fault}
    (h : s.uniformIndex count = .error fault) : (Failure.fault fault).InReach := by
  obtain rfl | h := uniformIndex_eq_error h
  · simp
  · exact inReach_uniformInt h

end Random.Source

namespace Sampling

theorem inReach_cumulativeIndex {sums : List Int} {s : Source} {failure : Failure}
    (h : cumulativeIndex sums s = .error failure) : failure.InReach := by
  obtain rfl | ⟨fault, hfault, rfl⟩ := cumulativeIndex_eq_error h
  · simp
  · exact Source.inReach_uniformInt hfault

theorem inReach_weightedIndex {weights : List Int} {s : Source} {failure : Failure}
    (h : weightedIndex weights s = .error failure) : failure.InReach := by
  obtain ⟨fault, hfault, rfl⟩ | ⟨sums, -, hindex⟩ := weightedIndex_eq_error h
  · obtain rfl | rfl := cumulativeWeights_eq_error hfault <;> simp
  · exact inReach_cumulativeIndex hindex

theorem Pool.inReach_draw {p : Pool} {s : Source} {failure : Failure}
    (h : (p.draw s).outcome = .error failure) : failure.InReach := by
  unfold Pool.draw at h
  simp only at h
  split at h
  · rename_i fault hfault
    cases h
    exact Source.inReach_uniformIndex hfault
  · split at h <;> cases h
    simp

theorem WeightedPool.inReach_draw {p : WeightedPool} {s : Source} {failure : Failure}
    (h : (p.draw s).outcome = .error failure) : failure.InReach := by
  unfold WeightedPool.draw at h
  simp only at h
  split at h
  · rename_i other hother
    cases h
    exact inReach_weightedIndex hother
  · cases h

end Sampling

namespace World

theorem inReach_drawValue {w : World} {values : List Int} {failure : Failure}
    (h : (w.drawValue values).1 = .error failure) : failure.InReach := by
  unfold drawValue at h
  split at h
  · rename_i fault hfault
    cases h
    exact Source.inReach_uniformIndex hfault
  · split at h <;> cases h
    simp

theorem inReach_drawBetween {w : World} {range : Expr} {lo hi : Int} {failure : Failure}
    (h : (w.drawBetween range lo hi).1 = .error failure) : failure.InReach := by
  unfold drawBetween at h
  split at h
  · cases h
    simp
  · split at h
    · rename_i fault hfault
      cases h
      exact Source.inReach_uniformInt hfault
    · cases h

end World

theorem Chooser.inReach_select {chooser : Chooser} {count : Nat} {w : World} {failure : Failure}
    (h : (chooser.select count w).1 = .error failure) : failure.InReach := by
  cases chooser with
  | pattern cursor => cases h
  | sample current? =>
    cases current? with
    | some member => cases h
    | none =>
      simp only [select] at h
      split at h
      · rename_i fault hfault
        cases h
        exact Source.inReach_uniformIndex hfault
      · cases h
  | weightedSample table current? =>
    cases current? with
    | some member => cases h
    | none =>
      simp only [select] at h
      split at h
      · rename_i other hother
        cases h
        exact inReach_cumulativeIndex hother
      · cases h
  | pool p current? | weightedPool p current? =>
    cases current? with
    | some ticket => cases h
    | none =>
      simp only [select] at h
      split at h
      · rename_i other hother
        cases h
        exact p.inReach_draw hother
      · cases h

theorem BinaryOp.inReach_apply {op : BinaryOp} {l r : Int} {failure : Failure}
    (h : op.apply l r = .error failure) : failure.InReach := by
  have hshift {f : Int → Nat → Int} (h : Word.shift f l r = .error failure) : failure.InReach := by
    unfold Word.shift at h
    split at h
    · cases h
    · split at h <;> cases h
      simp
  cases op with
  | shiftLeft | shiftRight => exact hshift h
  | div | mod =>
    simp only [apply] at h
    split at h <;> cases h
    simp
  | _ => cases h

namespace Cell

open World

variable {advance : Nat → World → Outcome × World}

/-- The failures that arise at a node itself and not at one below it. -/
inductive Raises (advance : Nat → World → Outcome × World) (w : World) : Cell → Failure → Prop
  | leaf {l : Leaf} {r : Report} {failure : Failure} (h : (l.step advance w).1 = .error failure) :
      Raises advance w (leaf l r) failure
  | range {min max : Cell} {r : Report} {lo hi : Int} {failure : Failure}
      (h : (w.drawBetween (.range min.expr max.expr) lo hi).1 = .error failure) :
      Raises advance w (range min max r) failure
  | increment {first last increment : Cell} {p : Progress} {r : Report} :
      Raises advance w (sequence first last increment p r)
        (.cause (.zeroIncrement (.sequence first.expr last.expr increment.expr)))
  | select {chooser : Chooser} {members : List Cell} {r : Report} {failure : Failure}
      (h : (chooser.select members.length w).1 = .error failure) :
      Raises advance w (choice chooser members r) failure
  | member {chooser : Chooser} {members : List Cell} {r : Report} {i : Nat}
      (h : (chooser.select members.length w).1 = .ok i) (hmember : members[i]? = none) :
      Raises advance w (choice chooser members r) (.fault .noSuchMember)
  | operator {op : BinaryOp} {left right : Cell} {r : Report} {x y : Int} {failure : Failure}
      (h : op.apply x y = .error failure) : Raises advance w (binary op left right r) failure

/-- A failure that arises at a node of a cell, in a world that the step can come to. -/
def RaisesWithin (advance : Nat → World → Outcome × World) (I : World → Prop) (c : Cell)
    (failure : Failure) : Prop :=
  ∃ node ∈ c.walk, ∃ w, I w ∧ Raises advance w node failure

theorem RaisesWithin.of_child {I : World → Prop} {c child : Cell} {failure : Failure}
    (hchild : child ∈ c.children) (h : RaisesWithin advance I child failure) :
    RaisesWithin advance I c failure := by
  obtain ⟨node, hnode, w, hw, hraises⟩ := h
  exact ⟨node, mem_walk_of_child hchild hnode, w, hw, hraises⟩

theorem Raises.within {I : World → Prop} {c : Cell} {w : World} {failure : Failure} (hw : I w)
    (h : Raises advance w c failure) : RaisesWithin advance I c failure :=
  ⟨c, mem_walk_self c, w, hw, h⟩

/-- Whether a leaf, where it steps a variable, keeps a property of worlds. -/
def Keeps (advance : Nat → World → Outcome × World) (I : World → Prop) (l : Leaf) : Prop :=
  ∀ ref name i, l = .next ref name i → ∀ w, I w → I (advance i w).2

/-- A step that fails, fails at one of the cell's nodes. -/
theorem raises_of_step {I : World → Prop} (hdraw : Robust I) (c : Cell) (w : World)
    (hleaves : ∀ l ∈ c.leaves, Keeps advance I l) (hw : I w) {failure : Failure}
    (h : (c.step advance w).outcome = .error failure) : RaisesWithin advance I c failure := by
  have hkeeps (c' : Cell) (hc' : ∀ l ∈ c'.leaves, Keeps advance I l) (v : World) (hv : I v) :
      I (c'.step advance v).world :=
    c'.step_keeps hdraw v (fun ref name i hl => hc' _ hl ref name i rfl) hv
  induction c generalizing w with
  | leaf l r => exact (Raises.leaf h).within hw
  | copy ref name body r ih => exact (ih w hleaves hw h).of_child (by simp [children])
  | range min max r ihMin ihMax =>
    simp only [leaves, List.forall_mem_append] at hleaves
    obtain ⟨hmin, hmax⟩ := hleaves
    have hs := hkeeps min hmin w hw
    simp only [step] at h
    split at h
    · rename_i other hother
      cases h
      exact (ihMin w hmin hw hother).of_child (by simp [children])
    · split at h
      · rename_i other hother
        cases h
        exact (ihMax _ hmax hs hother).of_child (by simp [children])
      · exact (Raises.range h).within (hkeeps max hmax _ hs)
  | sequence first last increment p r ihFirst ihLast ihIncrement =>
    simp only [leaves, List.forall_mem_append] at hleaves
    obtain ⟨⟨hfirst, hlast⟩, hincrement⟩ := hleaves
    have hs := hkeeps first hfirst w hw
    simp only [step] at h
    split at h
    · rename_i other hother
      cases h
      exact (ihFirst w hfirst hw hother).of_child (by simp [children])
    · have ht := hkeeps last hlast _ hs
      split at h
      · rename_i other hother
        cases h
        exact (ihLast _ hlast hs hother).of_child (by simp [children])
      · split at h
        · rename_i other hother
          cases h
          exact (ihIncrement _ hincrement ht hother).of_child (by simp [children])
        · split at h <;> cases h
          exact Raises.increment.within hw
  | choice chooser members r ih =>
    have hselect := hdraw (chooser.draws_select members.length w) hw
    simp only [step] at h
    split at h
    · rename_i other hother
      cases h
      exact (Raises.select hother).within hw
    · rename_i i hi
      split at h
      · rename_i other hother
        cases h
        rw [stepMember_eq] at hother
        split at hother
        · rename_i hnone
          cases hother
          exact (Raises.member hi hnone).within hw
        · rename_i c hc
          have hmem := List.mem_of_getElem? hc
          refine (ih c hmem _ (fun l hl => hleaves l ?_) hselect hother).of_child hmem
          rw [leaves, memberLeaves_eq_flatMap]
          exact List.mem_flatMap.mpr ⟨c, hmem, hl⟩
      · cases h
  | unary op operand r ih =>
    simp only [step] at h
    cases hs : (operand.step advance w).outcome with
    | error other =>
      rw [hs] at h
      cases h
      exact (ih w hleaves hw hs).of_child (by simp [children])
    | ok x =>
      rw [hs] at h
      cases h
  | binary op left right r ihLeft ihRight =>
    simp only [leaves, List.forall_mem_append] at hleaves
    obtain ⟨hleft, hright⟩ := hleaves
    have hs := hkeeps left hleft w hw
    simp only [step] at h
    split at h
    · rename_i other hother
      cases h
      exact (ihLeft w hleft hw hother).of_child (by simp [children])
    · rename_i x hx
      split at h
      · rename_i other hother
        cases h
        exact (ihRight _ hright hs hother).of_child (by simp [children])
      · rename_i y hy
        cases happly : op.apply x.value y.value with
        | error other =>
          rw [happly] at h
          cases h
          exact (Raises.operator happly).within hw
        | ok value =>
          rw [happly] at h
          cases h

/-- A leaf that no world with the property `I` keeps from a variable. -/
def Reaches (advance : Nat → World → Outcome × World) (I : World → Prop) : Leaf → Prop
  | .read _ _ i => ∀ w, I w → i < w.cells.size
  | .next _ _ i => ∀ w, I w → I (advance i w).2 ∧
    ∀ failure, (advance i w).1 = .error failure → failure.InReach
  | _ => True

theorem Reaches.keeps {I : World → Prop} {l : Leaf} (h : Reaches advance I l) :
    Keeps advance I l := by
  rintro ref name i rfl w hw
  exact (h w hw).1

/-- If all variables that a cell reads or steps are in reach, its step does not fail for want of
one. -/
theorem inReach_step {I : World → Prop} (hdraw : Robust I) (c : Cell) (w : World)
    (hreach : ∀ l ∈ c.leaves, Reaches advance I l) (hw : I w) {failure : Failure}
    (h : (c.step advance w).outcome = .error failure) : failure.InReach := by
  obtain ⟨node, hnode, v, hv, hraises⟩ :=
    c.raises_of_step hdraw w (fun l hl => (hreach l hl).keeps) hw h
  cases hraises with
  | @leaf l r _ h =>
    have hl := hreach l (mem_leaves_of_mem_walk hnode)
    cases l with
    | enumeration ref name values => exact inReach_drawValue h
    | next ref name i => exact (hl v hv).2 failure h
    | read ref name i =>
      simp only [Leaf.step, World.read, Array.getElem?_eq_getElem (hl v hv)] at h
      cases h
    | _ => cases h
  | range h => exact inReach_drawBetween h
  | increment => simp
  | select h => exact Chooser.inReach_select h
  | member => simp
  | operator h => exact BinaryOp.inReach_apply h

end Cell

end Stimulus
