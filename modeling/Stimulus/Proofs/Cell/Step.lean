import Stimulus.Proofs.Cell.Tree
import Stimulus.Proofs.Random.Stream

/-!
# What a step keeps

Whether it succeeds or fails, a step of a cell changes the world only by draws and by the steps of
the variables that the cell's leaves step; it changes the cell itself only in what a reset forgets;
and a step that fails leaves the cell's own report alone.
-/
namespace Stimulus

open Stimulus.Random Stimulus.Sampling

namespace World

/-- A world that differs from another one by draws: all cells are the same. -/
structure Draws (w v : World) : Prop where
  cells : v.cells = w.cells
  source : w.source.Follows v.source

@[simp] theorem Draws.refl (w : World) : w.Draws w := ⟨rfl, .refl _⟩

theorem Draws.trans {w v u : World} (h : w.Draws v) (h' : v.Draws u) : w.Draws u :=
  ⟨h'.cells.trans h.cells, h.source.trans h'.source⟩

/-- Whether draws cannot make a property of worlds fail. -/
def Robust (I : World → Prop) : Prop := ∀ ⦃w v⦄, w.Draws v → I w → I v

theorem robust_cells (P : Array Cell → Prop) : Robust fun w => P w.cells := by
  intro w v hdraws hw
  rwa [hdraws.cells]

theorem draws_drawValue (w : World) (values : List Int) : w.Draws (w.drawValue values).2 := by
  unfold drawValue
  split
  · exact .refl w
  · rename_i hdrawn
    split <;> exact ⟨rfl, Source.follows_uniformIndex hdrawn⟩

theorem draws_drawBetween (w : World) (range : Expr) (lo hi : Int) :
    w.Draws (w.drawBetween range lo hi).2 := by
  unfold drawBetween
  split
  · exact .refl w
  · split
    · exact .refl w
    · rename_i hdrawn
      exact ⟨rfl, Source.follows_uniformInt hdrawn⟩

end World

namespace Chooser

open World

theorem draws_select (chooser : Chooser) (count : Nat) (w : World) :
    w.Draws (chooser.select count w).2.2 := by
  cases chooser with
  | pattern cursor => exact .refl w
  | sample current? =>
    cases current? with
    | some member => exact .refl w
    | none =>
      simp only [select]
      split
      · exact .refl w
      · rename_i hdrawn
        exact ⟨rfl, Source.follows_uniformIndex hdrawn⟩
  | weightedSample table current? =>
    cases current? with
    | some member => exact .refl w
    | none =>
      simp only [select]
      split
      · exact .refl w
      · rename_i hdrawn
        exact ⟨rfl, follows_cumulativeIndex hdrawn⟩
  | pool p current? | weightedPool p current? =>
    cases current? with
    | some ticket => exact .refl w
    | none => simp only [select]; split <;> exact ⟨rfl, p.follows_draw w.source⟩

/-- A draw leaves a chooser what a reset makes of it. -/
@[simp] theorem reset_select (chooser : Chooser) (count : Nat) (w : World) :
    (chooser.select count w).2.1.reset = chooser.reset := by
  cases chooser with
  | pattern cursor => rfl
  | sample current? | weightedSample table current? =>
    cases current? with
    | some member => rfl
    | none => simp only [select]; split <;> rfl
  | pool p current? =>
    cases current? with
    | some ticket => rfl
    | none => simp only [select]; split <;> simp only [reset, Pool.refill, Pool.size_draw]
  | weightedPool p current? =>
    cases current? with
    | some ticket => rfl
    | none =>
      simp only [select]
      split <;> simp only [reset, WeightedPool.refill, WeightedPool.weights_draw]

@[simp] theorem reset_settle (chooser : Chooser) (count : Nat) (memberDone : Bool) :
    (chooser.settle count memberDone).2.reset = chooser.reset := by
  cases chooser <;> rfl

end Chooser

namespace Cell

open World

variable {advance : Nat → World → Outcome × World}

/-- A step keeps whatever draws keep, if the steps of other variables keep it too. -/
theorem step_keeps {I : World → Prop} (hdraw : Robust I) (c : Cell) (w : World)
    (hnext : ∀ ref name i, Leaf.next ref name i ∈ c.leaves → ∀ v, I v → I (advance i v).2)
    (hw : I w) : I (c.step advance w).world := by
  induction c generalizing w with
  | leaf l r =>
    cases l with
    | next ref name i => exact hnext ref name i (by simp [leaves]) w hw
    | enumeration ref name values => exact hdraw (draws_drawValue w values) hw
    | _ => exact hw
  | copy ref name body r ih => exact ih w hnext hw
  | range min max r ihMin ihMax =>
    simp only [leaves, List.mem_append] at hnext
    have hs := ihMin w (fun ref name i h => hnext ref name i (.inl h)) hw
    simp only [step]
    split
    · exact hs
    · have ht := ihMax _ (fun ref name i h => hnext ref name i (.inr h)) hs
      split
      · exact ht
      · exact hdraw (draws_drawBetween ..) ht
  | sequence first last increment p r ihFirst ihLast ihIncrement =>
    simp only [leaves, List.mem_append] at hnext
    have hs := ihFirst w (fun ref name i h => hnext ref name i (.inl (.inl h))) hw
    simp only [step]
    split
    · exact hs
    · have ht := ihLast _ (fun ref name i h => hnext ref name i (.inl (.inr h))) hs
      split
      · exact ht
      · have hu := ihIncrement _ (fun ref name i h => hnext ref name i (.inr h)) ht
        split
        · exact hu
        · split <;> exact hu
  | choice chooser members r ih =>
    have hselect := hdraw (chooser.draws_select members.length w) hw
    simp only [step]
    split
    · exact hselect
    · rename_i i hi
      have hs : I (stepMember advance members i (chooser.select members.length w).2.2).world := by
        rw [stepMember_eq]
        split
        · exact hselect
        · rename_i c hc
          have hmem := List.mem_of_getElem? hc
          refine ih c hmem _ (fun ref name i h => hnext ref name i ?_) hselect
          rw [leaves, memberLeaves_eq_flatMap]
          exact List.mem_flatMap.mpr ⟨c, hmem, h⟩
      split <;> exact hs
  | unary op operand r ih => exact ih w hnext hw
  | binary op left right r ihLeft ihRight =>
    simp only [leaves, List.mem_append] at hnext
    have hs := ihLeft w (fun ref name i h => hnext ref name i (.inl h)) hw
    simp only [step]
    split
    · exact hs
    · have ht := ihRight _ (fun ref name i h => hnext ref name i (.inr h)) hs
      split <;> exact ht

/-- Two ways to step other variables that do the same from the worlds that a step can come to. -/
def AgreesOn (I : World → Prop) (advance advance' : Nat → World → Outcome × World) (l : Leaf) :
    Prop :=
  ∀ ref name i, l = .next ref name i → ∀ v, I v → advance i v = advance' i v ∧ I (advance i v).2

/-- A step depends on the steps of other variables only where a leaf of the cell steps one. -/
theorem step_congr {I : World → Prop} {advance' : Nat → World → Outcome × World} (hdraw : Robust I)
    (c : Cell) (w : World) (hleaves : ∀ l ∈ c.leaves, AgreesOn I advance advance' l) (hw : I w) :
    c.step advance w = c.step advance' w := by
  have hkeeps (c' : Cell) (hc' : ∀ l ∈ c'.leaves, AgreesOn I advance advance' l) (v : World)
      (hv : I v) : I (c'.step advance v).world :=
    c'.step_keeps hdraw v (fun ref name i hl u hu => (hc' _ hl ref name i rfl u hu).2) hv
  induction c generalizing w with
  | leaf l r =>
    cases l with
    | next ref name i =>
      have hl := (hleaves _ (by simp [leaves]) ref name i rfl w hw).1
      simp only [step, Leaf.step, hl]
    | _ => rfl
  | copy ref name body r ih => simp only [step, ih w hleaves hw]
  | range min max r ihMin ihMax =>
    simp only [leaves, List.forall_mem_append] at hleaves
    obtain ⟨hmin, hmax⟩ := hleaves
    have hs := hkeeps min hmin w hw
    have ht := ihMax _ hmax hs
    rw [ihMin w hmin hw] at ht
    simp only [step, ihMin w hmin hw, ht]
  | sequence first last increment p r ihFirst ihLast ihIncrement =>
    simp only [leaves, List.forall_mem_append] at hleaves
    obtain ⟨⟨hfirst, hlast⟩, hincrement⟩ := hleaves
    have hs := hkeeps first hfirst w hw
    have ht := hkeeps last hlast _ hs
    have hthird := ihIncrement _ hincrement ht
    have hsecond := ihLast _ hlast hs
    rw [ihFirst w hfirst hw] at hsecond hthird
    rw [hsecond] at hthird
    simp only [step, ihFirst w hfirst hw, hsecond, hthird]
  | choice chooser members r ih =>
    have hselect := hdraw (chooser.draws_select members.length w) hw
    have hmember (i : Nat) : stepMember advance members i (chooser.select members.length w).2.2 =
        stepMember advance' members i (chooser.select members.length w).2.2 := by
      rw [stepMember_eq, stepMember_eq]
      cases hc : members[i]? with
      | none => rfl
      | some c =>
        have hmem := List.mem_of_getElem? hc
        have hstep := ih c hmem _ (fun l hl => hleaves l ?_) hselect
        · simp only [hstep]
        · rw [leaves, memberLeaves_eq_flatMap]
          exact List.mem_flatMap.mpr ⟨c, hmem, hl⟩
    simp only [step, hmember]
  | unary op operand r ih => simp only [step, ih w hleaves hw]
  | binary op left right r ihLeft ihRight =>
    simp only [leaves, List.forall_mem_append] at hleaves
    obtain ⟨hleft, hright⟩ := hleaves
    have hs := hkeeps left hleft w hw
    have ht := ihRight _ hright hs
    rw [ihLeft w hleft hw] at ht
    simp only [step, ihLeft w hleft hw, ht]

/-- A step changes nothing in a cell that a reset does not forget. -/
@[simp] theorem reset_step (c : Cell) (w : World) : (c.step advance w).after.reset = c.reset := by
  induction c generalizing w with
  | leaf l r => rfl
  | copy ref name body r ih => simp only [step, reset, ih]
  | range min max r ihMin ihMax =>
    simp only [step]
    split
    · simp only [reset, ihMin]
    · split <;> simp only [reset, ihMin, ihMax]
  | sequence first last increment p r ihFirst ihLast ihIncrement =>
    simp only [step]
    split
    · simp only [reset, ihFirst]
    · split
      · simp only [reset, ihFirst, ihLast]
      · split
        · simp only [reset, ihFirst, ihLast, ihIncrement]
        · split <;> simp only [reset, ihFirst, ihLast, ihIncrement]
  | choice chooser members r ih =>
    have hmembers (i : Nat) (v : World) :
        resetMembers (stepMember advance members i v).after = resetMembers members := by
      rw [stepMember_eq]
      split
      · rfl
      · rename_i c hc
        obtain ⟨hi, rfl⟩ := List.getElem?_eq_some_iff.mp hc
        simp only [resetMembers_eq_map, List.map_set, ih _ (List.getElem_mem hi)]
        rw [← List.map_set, List.set_getElem_self]
    simp only [step]
    split
    · simp only [reset, Chooser.reset_select]
    · split <;> simp only [reset, hmembers, Chooser.reset_select, Chooser.reset_settle]
  | unary op operand r ih => simp only [step, reset, ih]
  | binary op left right r ihLeft ihRight =>
    simp only [step]
    split
    · simp only [reset, ihLeft]
    · split <;> simp only [reset, ihLeft, ihRight]

/-- A step settles the report of a cell by its outcome. -/
theorem report_step (c : Cell) (w : World) :
    (c.step advance w).after.report = c.report.settle (c.step advance w).outcome := by
  cases c with
  | leaf l r | copy ref name body r | unary op operand r => rfl
  | range min max r =>
    simp only [step]
    split
    · rfl
    · split <;> rfl
  | sequence first last increment p r =>
    simp only [step]
    split
    · rfl
    · split
      · rfl
      · split
        · rfl
        · split <;> rfl
  | choice chooser members r =>
    simp only [step]
    split
    · rfl
    · split <;> rfl
  | binary op left right r =>
    simp only [step]
    split
    · rfl
    · split <;> rfl

end Cell

end Stimulus
