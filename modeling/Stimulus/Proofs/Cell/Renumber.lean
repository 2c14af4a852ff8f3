import Stimulus.Proofs.Cell.Step

/-!
# Cells with other places

Cells tell variables by their places. Where places are given anew, every leaf that reads or steps a
variable gets the new place, and the cell makes the same steps as before in a world that has the
variables at their new places: it gives the same readings and the same failures, and it draws the
same from the source.
-/
namespace Stimulus

open Stimulus.Random Stimulus.Sampling

variable {σ : Nat → Nat}

namespace Leaf

/-- The leaf with the place of its variable given anew. -/
def renumber (σ : Nat → Nat) : Leaf → Leaf
  | read ref name index => read ref name (σ index)
  | next ref name index => next ref name (σ index)
  | l => l

@[simp] theorem expr_renumber (l : Leaf) : (l.renumber σ).expr = l.expr := by
  cases l <;> rfl

end Leaf

namespace Cell

mutual

/-- The cell with the places of all variables given anew, in copies too. -/
def renumber (σ : Nat → Nat) : Cell → Cell
  | leaf l r => leaf (l.renumber σ) r
  | copy ref name body r => copy ref name (body.renumber σ) r
  | range min max r => range (min.renumber σ) (max.renumber σ) r
  | sequence first last increment p r =>
    sequence (first.renumber σ) (last.renumber σ) (increment.renumber σ) p r
  | choice chooser members r => choice chooser (renumberMembers σ members) r
  | unary op operand r => unary op (operand.renumber σ) r
  | binary op left right r => binary op (left.renumber σ) (right.renumber σ) r

def renumberMembers (σ : Nat → Nat) : List Cell → List Cell
  | [] => []
  | c :: rest => c.renumber σ :: renumberMembers σ rest

end

theorem renumberMembers_eq_map (members : List Cell) :
    renumberMembers σ members = members.map (renumber σ) := by
  induction members with
  | nil => rfl
  | cons c rest ih => simp [renumberMembers, ih]

@[simp] theorem reading_renumber (c : Cell) : (c.renumber σ).reading = c.reading := by
  cases c <;> simp [renumber, reading, report]

@[simp] theorem expr_renumber (c : Cell) : (c.renumber σ).expr = c.expr := by
  induction c with
  | leaf l r => simp [renumber, expr]
  | copy ref name body r => rfl
  | range min max r ihMin ihMax => simp only [renumber, expr, ihMin, ihMax]
  | sequence first last increment p r ihFirst ihLast ihIncrement =>
    simp only [renumber, expr, ihFirst, ihLast, ihIncrement]
  | choice chooser members r ih =>
    have hmembers : memberExprs (renumberMembers σ members) = memberExprs members := by
      rw [memberExprs_eq_map, memberExprs_eq_map, renumberMembers_eq_map, List.map_map]
      exact List.map_congr_left ih
    simp only [renumber, expr, hmembers]
  | unary op operand r ih => simp only [renumber, expr, ih]
  | binary op left right r ihLeft ihRight => simp only [renumber, expr, ihLeft, ihRight]

end Cell

/-! ## Draws do not look at cells -/

namespace World

theorem drawValue_cells (w : World) (cells : Array Cell) (values : List Int) :
    ({ w with cells } : World).drawValue values =
      ((w.drawValue values).1, { (w.drawValue values).2 with cells }) := by
  unfold drawValue
  simp only
  split
  · rfl
  · split <;> rfl

theorem drawBetween_cells (w : World) (cells : Array Cell) (range : Expr) (lo hi : Int) :
    ({ w with cells } : World).drawBetween range lo hi =
      ((w.drawBetween range lo hi).1, { (w.drawBetween range lo hi).2 with cells }) := by
  unfold drawBetween
  simp only
  split
  · rfl
  · split <;> rfl

end World

theorem Chooser.select_cells (chooser : Chooser) (count : Nat) (w : World) (cells : Array Cell) :
    chooser.select count { w with cells } =
      ((chooser.select count w).1, (chooser.select count w).2.1,
        { (chooser.select count w).2.2 with cells }) := by
  cases chooser with
  | pattern cursor => rfl
  | sample current? | weightedSample table current? | pool p current? | weightedPool p current? =>
    cases current? with
    | some member => rfl
    | none =>
      simp only [select]
      split <;> rfl

/-! ## Worlds with other places -/

namespace World

/-- A world that has the variables of another one at new places, and perhaps more variables. -/
structure Places (σ : Nat → Nat) (w w' : World) : Prop where
  cells : ∀ j, w'.cells[σ j]? = (w.cells[j]?).map (Cell.renumber σ)
  source : w'.source = w.source
  refills : w'.refills = w.refills

theorem Places.eq {w w' : World} (h : Places σ w w') : w' = { w with cells := w'.cells } := by
  obtain ⟨cells, source, refills⟩ := w'
  obtain ⟨-, hsource, hrefills⟩ := h
  cases hsource
  cases hrefills
  rfl

/-- A relation between worlds with the variables at old and at new places, which the same draws in
both cannot break. -/
structure Tracking (σ : Nat → Nat) (R : World → World → Prop) : Prop where
  places : ∀ ⦃w w'⦄, R w w' → Places σ w w'
  draws : ∀ ⦃w w' v⦄, R w w' → w.Draws v → R v { v with cells := w'.cells }

end World

/-- Two steps with the same outcome, by a cell with old and one with new places. -/
structure Stepped.Tracks (σ : Nat → Nat) (R : World → World → Prop) (s s' : Stepped Cell) :
    Prop where
  outcome : s'.outcome = s.outcome
  after : s'.after = s.after.renumber σ
  world : R s.world s'.world

/-- A leaf that finds the variable that it reads or steps, at its new place too. -/
def Leaf.Tracks (σ : Nat → Nat) (R : World → World → Prop)
    (advance advance' : Nat → World → Outcome × World) : Leaf → Prop
  | .read _ _ j => ∀ w w', R w w' → j < w.cells.size
  | .next _ _ j => ∀ w w', R w w' → (advance' (σ j) w').1 = (advance j w).1 ∧
      R (advance j w).2 (advance' (σ j) w').2
  | _ => True

namespace Cell

open World

variable {R : World → World → Prop} {advance advance' : Nat → World → Outcome × World}

theorem tracks_leaf (hR : Tracking σ R) {l : Leaf} {r : Report} {w w' : World}
    (hl : l.Tracks σ R advance advance') (h : R w w') :
    Stepped.Tracks σ R ((leaf l r).step advance w)
      (((leaf l r).renumber σ).step advance' w') := by
  have hplaces := hR.places h
  cases l with
  | literal | item | constant => exact ⟨rfl, rfl, h⟩
  | enumeration ref name values =>
    have hdraws := hR.draws h (draws_drawValue w values)
    rw [hplaces.eq]
    simp only [renumber, Leaf.renumber, step, Leaf.step, drawValue_cells]
    exact ⟨rfl, rfl, hdraws⟩
  | read ref name j =>
    have hread : w'.read (σ j) = w.read j := by
      rw [World.read, World.read, hplaces.cells, Array.getElem?_eq_getElem (hl w w' h)]
      simp
    simp only [renumber, Leaf.renumber, step, Leaf.step, hread]
    exact ⟨rfl, rfl, h⟩
  | next ref name j =>
    obtain ⟨houtcome, hworld⟩ := hl w w' h
    simp only [renumber, Leaf.renumber, step, Leaf.step, houtcome]
    exact ⟨rfl, rfl, hworld⟩

theorem tracks_stepMember {members : List Cell} (i : Nat)
    (hstep : ∀ c ∈ members, ∀ {w w' : World}, (∀ l ∈ c.leaves, l.Tracks σ R advance advance') →
      R w w' → Stepped.Tracks σ R (c.step advance w) ((c.renumber σ).step advance' w'))
    (hleaves : ∀ c ∈ members, ∀ l ∈ c.leaves, l.Tracks σ R advance advance') {w w' : World}
    (h : R w w') :
    (stepMember advance' (members.map (renumber σ)) i w').outcome =
        (stepMember advance members i w).outcome ∧
      (stepMember advance' (members.map (renumber σ)) i w').after =
        (stepMember advance members i w).after.map (renumber σ) ∧
      R (stepMember advance members i w).world
        (stepMember advance' (members.map (renumber σ)) i w').world := by
  rw [stepMember_eq, stepMember_eq, List.getElem?_map]
  cases hc : members[i]? with
  | none => exact ⟨rfl, rfl, h⟩
  | some c =>
    have hmem := List.mem_of_getElem? hc
    obtain ⟨houtcome, hafter, hworld⟩ := hstep c hmem (hleaves c hmem) h
    exact ⟨houtcome, by simp only [Option.map_some, hafter, List.map_set], hworld⟩

/-- A cell with new places makes the steps of the cell with the old ones. -/
theorem tracks_step (hR : Tracking σ R) (c : Cell) {w w' : World}
    (hleaves : ∀ l ∈ c.leaves, l.Tracks σ R advance advance') (h : R w w') :
    Stepped.Tracks σ R (c.step advance w) ((c.renumber σ).step advance' w') := by
  induction c generalizing w w' with
  | leaf l r => exact tracks_leaf hR (hleaves l (by simp [leaves])) h
  | copy ref name body r ih =>
    obtain ⟨houtcome, hafter, hworld⟩ := ih hleaves h
    simp only [renumber, step, houtcome, hafter]
    exact ⟨rfl, rfl, hworld⟩
  | range min max r ihMin ihMax =>
    simp only [leaves, List.forall_mem_append] at hleaves
    obtain ⟨hs, hsAfter, hsWorld⟩ := ihMin hleaves.1 h
    simp only [renumber, step, hs, hsAfter]
    cases (min.step advance w).outcome with
    | error failure => exact ⟨rfl, rfl, hsWorld⟩
    | ok lo =>
      obtain ⟨ht, htAfter, htWorld⟩ := ihMax hleaves.2 hsWorld
      simp only [ht, htAfter]
      cases (max.step advance (min.step advance w).world).outcome with
      | error failure => exact ⟨rfl, rfl, htWorld⟩
      | ok hi =>
        have hdraws := hR.draws htWorld
          (draws_drawBetween _ (.range min.expr max.expr) lo.value hi.value)
        rw [(hR.places htWorld).eq]
        simp only [expr_renumber, drawBetween_cells]
        exact ⟨rfl, rfl, hdraws⟩
  | sequence first last increment p r ihFirst ihLast ihIncrement =>
    simp only [leaves, List.forall_mem_append] at hleaves
    obtain ⟨⟨hfirst, hlast⟩, hincrement⟩ := hleaves
    obtain ⟨hs, hsAfter, hsWorld⟩ := ihFirst hfirst h
    simp only [renumber, step, hs, hsAfter]
    cases (first.step advance w).outcome with
    | error failure => exact ⟨rfl, rfl, hsWorld⟩
    | ok a =>
      obtain ⟨ht, htAfter, htWorld⟩ := ihLast hlast hsWorld
      simp only [ht, htAfter]
      cases (last.step advance (first.step advance w).world).outcome with
      | error failure => exact ⟨rfl, rfl, htWorld⟩
      | ok b =>
        obtain ⟨hu, huAfter, huWorld⟩ := ihIncrement hincrement htWorld
        simp only [hu, huAfter, expr_renumber]
        split
        · exact ⟨rfl, rfl, huWorld⟩
        · split <;> exact ⟨rfl, rfl, huWorld⟩
  | choice chooser members r ih =>
    have hplaces := hR.places h
    have hselect := hR.draws h (chooser.draws_select members.length w)
    rw [hplaces.eq]
    simp only [renumber, step, renumberMembers_eq_map, List.length_map, Chooser.select_cells]
    cases (chooser.select members.length w).1 with
    | error failure => exact ⟨rfl, by simp [renumber, renumberMembers_eq_map], hselect⟩
    | ok i =>
      have hmember : ∀ c ∈ members, ∀ l ∈ c.leaves, l.Tracks σ R advance advance' := by
        intro c hc l hl
        refine hleaves l ?_
        rw [leaves, memberLeaves_eq_flatMap]
        exact List.mem_flatMap.mpr ⟨c, hc, hl⟩
      obtain ⟨hs, hsAfter, hsWorld⟩ := tracks_stepMember i ih hmember hselect
      simp only [hs, hsAfter]
      cases (stepMember advance members i (chooser.select members.length w).2.2).outcome with
      | error failure => exact ⟨rfl, by simp [renumber, renumberMembers_eq_map], hsWorld⟩
      | ok x => exact ⟨rfl, by simp [renumber, renumberMembers_eq_map], hsWorld⟩
  | unary op operand r ih =>
    obtain ⟨houtcome, hafter, hworld⟩ := ih hleaves h
    simp only [renumber, step, houtcome, hafter]
    exact ⟨rfl, rfl, hworld⟩
  | binary op left right r ihLeft ihRight =>
    simp only [leaves, List.forall_mem_append] at hleaves
    obtain ⟨hs, hsAfter, hsWorld⟩ := ihLeft hleaves.1 h
    simp only [renumber, step, hs, hsAfter]
    cases (left.step advance w).outcome with
    | error failure => exact ⟨rfl, rfl, hsWorld⟩
    | ok x =>
      obtain ⟨ht, htAfter, htWorld⟩ := ihRight hleaves.2 hsWorld
      simp only [ht, htAfter]
      cases (right.step advance (left.step advance w).world).outcome with
      | error failure => exact ⟨rfl, rfl, htWorld⟩
      | ok y => exact ⟨rfl, rfl, htWorld⟩

/-! ## Cells that touch nothing -/

/-- Whether a node draws nothing and steps no variable by itself: it is no range, no sampler, and no
reference to a whole enumeration or to the next step of a variable. -/
def Quiet : Cell → Prop
  | range .. | leaf (.enumeration ..) _ | leaf (.next ..) _ => False
  | choice (.pattern _) _ _ => True
  | choice .. => False
  | _ => True

/-- A cell all of whose nodes are quiet, those of copies included. -/
def Still (c : Cell) : Prop := ∀ node ∈ c.walk, node.Quiet

theorem Still.quiet {c : Cell} (h : c.Still) : c.Quiet := h c c.mem_walk_self

theorem Still.child {c child : Cell} (h : c.Still) (hchild : child ∈ c.children) : child.Still :=
  fun node hnode => h node (mem_walk_of_child hchild hnode)

theorem quiet_reset {c : Cell} : c.reset.Quiet ↔ c.Quiet := by
  cases c with
  | leaf l r => cases l <;> rfl
  | choice chooser members r => cases chooser <;> rfl
  | copy | range | sequence | unary | binary => rfl

/-- A reset does not change whether a cell is still. -/
theorem still_reset {c : Cell} : c.reset.Still ↔ c.Still := by
  rw [Still, walk_reset, List.forall_mem_map]
  simp only [quiet_reset, Still]

/-- Whether it succeeds or fails, the step of a still cell leaves the world as it was. -/
theorem Still.world_step {c : Cell} (h : c.Still) (w : World) : (c.step advance w).world = w := by
  induction c generalizing w with
  | leaf l r =>
    cases l with
    | enumeration | next => exact absurd h.quiet id
    | literal | item | constant | read => rfl
  | copy ref name body r ih => exact ih (h.child (by simp [children])) w
  | range min max r => exact absurd h.quiet id
  | sequence first last increment p r ihFirst ihLast ihIncrement =>
    have hs := ihFirst (h.child (by simp [children]))
    have ht := ihLast (h.child (by simp [children]))
    have hu := ihIncrement (h.child (by simp [children]))
    simp only [step]
    split
    · exact hs w
    · rw [hs]
      split
      · exact ht w
      · rw [ht]
        split
        · exact hu w
        · split <;> exact hu w
  | choice chooser members r ih =>
    obtain ⟨cursor, rfl⟩ : ∃ cursor, chooser = .pattern cursor := by
      cases chooser with
      | pattern cursor => exact ⟨cursor, rfl⟩
      | sample | weightedSample | pool | weightedPool => exact absurd h.quiet id
    have hmember : (stepMember advance members cursor w).world = w := by
      rw [stepMember_eq]
      split
      · rfl
      · rename_i c hc
        have hmem := List.mem_of_getElem? hc
        exact ih c hmem (h.child hmem) w
    simp only [step, Chooser.select]
    split <;> exact hmember
  | unary op operand r ih => exact ih (h.child (by simp [children])) w
  | binary op left right r ihLeft ihRight =>
    have hs := ihLeft (h.child (by simp [children]))
    have ht := ihRight (h.child (by simp [children]))
    simp only [step]
    split
    · exact hs w
    · rw [hs]
      split <;> exact ht w

end Cell

end Stimulus
