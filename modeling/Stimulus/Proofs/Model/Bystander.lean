import Stimulus.Proofs.Model.Containment
import Stimulus.Proofs.Model.Termination
import Stimulus.Proofs.Scope.Insertion

/-!
# A bystander among the variables

A variable that draws nothing and steps no other one is put in among the variables of a world. Every
other variable makes the same steps in both worlds, and a whole cycle is the same in both, up to the
places of the variables, unless it ends at the new one.
-/
namespace Stimulus

open Scope hiding bind

namespace World

/-! ## The variable that ends a cycle -/

/-- The place of the first variable from `index` on that fails. -/
def failing? (index : Nat) : List Declaration → World → Option Nat
  | [], _ => none
  | _ :: rest, w =>
    let stepped := w.stepVariable index
    match stepped.1 with
    | .error _ => some index
    | .ok _ => failing? (index + 1) rest stepped.2

section

variable {d : Declaration} {rest : List Declaration} {i : Nat} {w : World}

theorem stepAll_cons_of_error {failure : Failure} (h : (stepVariable i w).1 = .error failure) :
    stepAll i (d :: rest) w = (some (d.error failure), (stepVariable i w).2) := by
  simp only [stepAll, h]

theorem stepAll_cons_of_ok {x : Reading} (h : (stepVariable i w).1 = .ok x) :
    stepAll i (d :: rest) w = stepAll (i + 1) rest (stepVariable i w).2 := by
  simp only [stepAll, h]

theorem failing?_cons_of_error {failure : Failure} (h : (stepVariable i w).1 = .error failure) :
    failing? i (d :: rest) w = some i := by
  simp only [failing?, h]

theorem failing?_cons_of_ok {x : Reading} (h : (stepVariable i w).1 = .ok x) :
    failing? i (d :: rest) w = failing? (i + 1) rest (stepVariable i w).2 := by
  simp only [failing?, h]

end

theorem failing?_eq_none_iff {declarations : List Declaration} {i : Nat} {w : World} :
    failing? i declarations w = none ↔ (stepAll i declarations w).1 = none := by
  induction declarations generalizing i w with
  | nil => simp [failing?, stepAll]
  | cons d rest ih =>
    cases hstep : (stepVariable i w).1 with
    | error failure => simp [failing?_cons_of_error hstep, stepAll_cons_of_error hstep]
    | ok x => rw [failing?_cons_of_ok hstep, stepAll_cons_of_ok hstep, ih]

/-- Stepping goes on behind the first variables only if none of them fails. -/
theorem stepAll_append (first rest : List Declaration) (i : Nat) (w : World) :
    stepAll i (first ++ rest) w =
      if (stepAll i first w).1 = none then stepAll (i + first.length) rest (stepAll i first w).2
      else stepAll i first w := by
  induction first generalizing i w with
  | nil => simp [stepAll]
  | cons d first ih =>
    rw [List.cons_append]
    cases hstep : (stepVariable i w).1 with
    | error failure => simp [stepAll_cons_of_error hstep]
    | ok x =>
      rw [stepAll_cons_of_ok hstep, stepAll_cons_of_ok hstep, ih, List.length_cons, Nat.add_assoc,
        Nat.add_comm 1]

theorem failing?_append (first rest : List Declaration) (i : Nat) (w : World) :
    failing? i (first ++ rest) w =
      (failing? i first w).or (failing? (i + first.length) rest (stepAll i first w).2) := by
  induction first generalizing i w with
  | nil => rfl
  | cons d first ih =>
    rw [List.cons_append]
    cases hstep : (stepVariable i w).1 with
    | error failure => simp [failing?_cons_of_error hstep]
    | ok x =>
      rw [failing?_cons_of_ok hstep, failing?_cons_of_ok hstep, stepAll_cons_of_ok hstep, ih,
        List.length_cons, Nat.add_assoc, Nat.add_comm 1]

/-! ## Worlds with one more variable -/

/-- The second world has the variables of the first one and a still variable at place `i`. The first
one is a state of the variables of `start`. -/
structure Inserted (i : Nat) (start w w' : World) : Prop where
  places : Places (displaced i) w w'
  initialCells : w.initialCells = start.initialCells
  still : ∃ c, w'.cells[i]? = some c ∧ c.Still

variable {i : Nat} {start w w' : World}

theorem tracking_inserted : Tracking (displaced i) (Inserted i start) where
  places _ _ h := h.places
  draws w w' v h hdraws := by
    obtain ⟨⟨hcells, -, -⟩, hinitial, hstill⟩ := h
    refine ⟨⟨?_, rfl, rfl⟩, ?_, hstill⟩
    · rwa [hdraws.cells]
    · rw [World.initialCells, hdraws.cells]
      exact hinitial

/-- Both worlds stay alike when a variable gets the same new cell in both. -/
theorem Inserted.store (h : Inserted i start w w') {j : Nat} {cell : Cell}
    (hcell : w.initialCells[j]? = some cell.reset) :
    Inserted i start (w.store j cell)
      (w'.store (displaced i j) (cell.renumber (displaced i))) := by
  obtain ⟨⟨hcells, hsource, hrefills⟩, hinitial, c, hc, hstill⟩ := h
  refine ⟨⟨fun k => ?_, hsource, hrefills⟩, ?_, c, ?_, hstill⟩
  · by_cases hk : j = k
    · subst hk
      obtain ⟨old, hold, -⟩ : ∃ old, w.cells[j]? = some old ∧ old.reset = cell.reset := by
        rw [getElem?_initialCells] at hcell
        exact Option.map_eq_some_iff.mp hcell
      have hold' := hcells j
      rw [hold, Option.map_some] at hold'
      obtain ⟨hj, -⟩ := Array.getElem?_eq_some_iff.mp hold
      obtain ⟨hj', -⟩ := Array.getElem?_eq_some_iff.mp hold'
      simp only [World.store]
      rw [Array.getElem?_setIfInBounds_self_of_lt hj, Array.getElem?_setIfInBounds_self_of_lt hj',
        Option.map_some]
    · have hk' : displaced i j ≠ displaced i k := fun heq =>
        hk ((strictMono_displaced i).injective heq)
      simp only [World.store]
      rw [Array.getElem?_setIfInBounds_ne hk, Array.getElem?_setIfInBounds_ne hk', hcells]
  · rw [initialCells_store hcell, hinitial]
  · rw [World.store, Array.getElem?_setIfInBounds_ne (displaced_ne i j), hc]

/-- A step of an old variable is the same in both worlds, by induction on its place: the variables
that it steps are before it. -/
theorem Inserted.stepVariable (hback : Backward start.cells) {j : Nat} (hj : j < start.cells.size)
    (h : Inserted i start w w') :
    (stepVariable (displaced i j) w').1 = (stepVariable j w).1 ∧
      Inserted i start (stepVariable j w).2 (stepVariable (displaced i j) w').2 := by
  induction j using Nat.strongRecOn generalizing w w' with
  | ind j ih =>
    have hsize : w.cells.size = start.cells.size := size_of_initialCells h.initialCells
    have hcell : w.cells[j]? = some w.cells[j] := Array.getElem?_eq_getElem (by omega)
    have hcell' : w'.cells[displaced i j]? = some (w.cells[j].renumber (displaced i)) := by
      rw [h.places.cells, hcell, Option.map_some]
    have hbefore := backward_of_initialCells h.initialCells hback j _ hcell
    have hleaves : ∀ l ∈ w.cells[j].leaves, l.Tracks (displaced i) (Inserted i start)
        (stepBelow j) (stepBelow (displaced i j)) := by
      intro l hl
      cases l with
      | read ref name k =>
        intro v v' hv
        have hk : k < j := hbefore _ hl k rfl
        rw [size_of_initialCells hv.initialCells]
        omega
      | next ref name k =>
        intro v v' hv
        have hk : k < j := hbefore _ hl k rfl
        rw [stepBelow_of_lt hk, stepBelow_of_lt (strictMono_displaced i hk)]
        exact ih k hk (by omega) hv
      | literal | item | constant | enumeration => trivial
    obtain ⟨houtcome, hafter, hworld⟩ := Cell.tracks_step tracking_inserted w.cells[j] hleaves h
    have hkept : (w.cells[j].step (stepBelow j) w).world.initialCells = w.initialCells := by
      rw [hworld.initialCells, h.initialCells]
    rw [stepVariable_eq hcell, stepVariable_eq hcell', hafter]
    refine ⟨houtcome, hworld.store ?_⟩
    rw [hkept, getElem?_initialCells, hcell, Cell.reset_step, Option.map_some]

/-- A step of the new variable, whether it fails or not, changes nothing else. -/
theorem Inserted.stepNew (h : Inserted i start w w') :
    Inserted i start w (World.stepVariable i w').2 := by
  obtain ⟨⟨hcells, hsource, hrefills⟩, hinitial, c, hc, hstill⟩ := h
  rw [stepVariable_eq hc, hstill.world_step]
  refine ⟨⟨fun k => ?_, hsource, hrefills⟩, hinitial, (c.step (stepBelow i) w').after, ?_, ?_⟩
  · rw [World.store, Array.getElem?_setIfInBounds_ne (displaced_ne i k).symm, hcells]
  · obtain ⟨hi, -⟩ := Array.getElem?_eq_some_iff.mp hc
    rw [World.store, Array.getElem?_setIfInBounds_self_of_lt hi]
  · rwa [← Cell.still_reset, Cell.reset_step, Cell.still_reset]

/-- Two sequences of steps with the same error, at the same variable, that lead to worlds alike. -/
structure Inserted.Cycles (i : Nat) (start : World) (index : Nat) (declarations : List Declaration)
    (w : World) (index' : Nat) (declarations' : List Declaration) (w' : World) : Prop where
  error : (stepAll index' declarations' w').1 = (stepAll index declarations w).1
  failing : failing? index' declarations' w' = (failing? index declarations w).map (displaced i)
  world : Inserted i start (stepAll index declarations w).2 (stepAll index' declarations' w').2

/-- The steps of some old variables, in a row in both worlds. -/
theorem Inserted.stepAll (hback : Backward start.cells) {declarations : List Declaration}
    {index index' : Nat}
    (hplaces : ∀ t < declarations.length, displaced i (index + t) = index' + t)
    (hsize : index + declarations.length ≤ start.cells.size) (h : Inserted i start w w') :
    Cycles i start index declarations w index' declarations w' := by
  induction declarations generalizing index index' w w' with
  | nil => exact ⟨rfl, rfl, h⟩
  | cons d rest ih =>
    rw [List.length_cons] at hplaces hsize
    have hfirst : displaced i index = index' := hplaces 0 (by omega)
    obtain ⟨houtcome, hworld⟩ := h.stepVariable hback (j := index) (by omega)
    rw [hfirst] at houtcome hworld
    have hrest : ∀ t < rest.length, displaced i (index + 1 + t) = index' + 1 + t := by
      intro t ht
      have hplace := hplaces (t + 1) (by omega)
      rwa [show index + (t + 1) = index + 1 + t by omega,
        show index' + (t + 1) = index' + 1 + t by omega] at hplace
    have hmore := ih hrest (by omega) hworld
    cases hstep : (World.stepVariable index w).1 with
    | error failure =>
      rw [hstep] at houtcome
      constructor
      · rw [stepAll_cons_of_error hstep, stepAll_cons_of_error houtcome]
      · rw [failing?_cons_of_error hstep, failing?_cons_of_error houtcome, Option.map_some, hfirst]
      · rwa [stepAll_cons_of_error hstep, stepAll_cons_of_error houtcome]
    | ok x =>
      rw [hstep] at houtcome
      constructor
      · rw [stepAll_cons_of_ok hstep, stepAll_cons_of_ok houtcome, hmore.error]
      · rw [failing?_cons_of_ok hstep, failing?_cons_of_ok houtcome, hmore.failing]
      · rw [stepAll_cons_of_ok hstep, stepAll_cons_of_ok houtcome]
        exact hmore.world

/-- A whole cycle with the new variable among the others, unless it is the one that fails. -/
theorem Inserted.cycle (hback : Backward start.cells) {before after : List Declaration}
    {d : Declaration} (hsize : start.cells.size = (before ++ after).length)
    (h : Inserted before.length start w w')
    (hd : failing? 0 (before ++ d :: after) w' ≠ some before.length) :
    Cycles before.length start 0 (before ++ after) w 0 (before ++ d :: after) w' := by
  rw [List.length_append] at hsize
  have hfirst : Cycles before.length start 0 before w 0 before w' := by
    refine h.stepAll hback (fun t ht => ?_) (by omega)
    rw [displaced, if_pos (by omega)]
  obtain ⟨herror, hfailing, hworld⟩ := hfirst
  by_cases hstopped : (World.stepAll 0 before w).1 = none
  · have hnone := failing?_eq_none_iff.mpr hstopped
    rw [hnone, Option.map_none] at hfailing
    rw [hstopped] at herror
    rw [failing?_append, hfailing, Option.none_or, Nat.zero_add] at hd
    have hlast : Cycles before.length start before.length after (World.stepAll 0 before w).2
        before.length (d :: after) (World.stepAll 0 before w').2 := by
      cases hstep : (World.stepVariable before.length (World.stepAll 0 before w').2).1 with
      | error failure =>
        exact absurd (failing?_cons_of_error hstep) hd
      | ok x =>
        have hmore : Cycles before.length start before.length after (World.stepAll 0 before w).2
            (before.length + 1) after
            (World.stepVariable before.length (World.stepAll 0 before w').2).2 := by
          refine hworld.stepNew.stepAll hback (fun t ht => ?_) (by omega)
          rw [displaced, if_neg (by omega)]
          omega
        constructor
        · rw [stepAll_cons_of_ok hstep, hmore.error]
        · rw [failing?_cons_of_ok hstep, hmore.failing]
        · rw [stepAll_cons_of_ok hstep]
          exact hmore.world
    constructor
    · simpa only [stepAll_append, hstopped, herror, if_true, Nat.zero_add] using hlast.error
    · simpa only [failing?_append, hnone, hfailing, Option.none_or, Nat.zero_add]
        using hlast.failing
    · simpa only [stepAll_append, hstopped, herror, if_true, Nat.zero_add] using hlast.world
  · have hstopped' : (World.stepAll 0 before w').1 ≠ none := by rwa [herror]
    obtain ⟨j, hj⟩ := Option.ne_none_iff_exists'.mp (mt failing?_eq_none_iff.mp hstopped)
    constructor
    · simpa only [stepAll_append, if_neg hstopped, if_neg hstopped'] using herror
    · rw [failing?_append, failing?_append, hfailing, hj, Option.map_some, Option.some_or,
        Option.some_or, Option.map_some]
    · simpa only [stepAll_append, if_neg hstopped, if_neg hstopped'] using hworld

end World

end Stimulus
