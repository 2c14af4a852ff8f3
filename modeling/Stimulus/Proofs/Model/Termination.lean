import Stimulus.Proofs.Model.Backward
import Stimulus.Proofs.Scope.Expansion

/-!
# Termination

Compiling builds the cells of copies by going through the expressions of other variables, and a step
re-enters the cells of the variables that it steps. Both recursions are relations here, without a
bound. They end because every reference of a compiled model goes to an earlier variable: so no
references form a cycle.
-/
namespace Stimulus

namespace World

/-- What a step of a variable gives, if the recursion through the variables that it steps ends.
Those are stepped in worlds of the same variables, whatever state these are in. -/
inductive Steps : Nat → World → Outcome × World → Prop
  | mk {index : Nat} {w : World} {cell : Cell} (advance : Nat → World → Outcome × World)
      (hcell : w.cells[index]? = some cell)
      (hadvance : ∀ ref name j, .next ref name j ∈ cell.leaves →
        ∀ v : World, v.initialCells = w.initialCells → Steps j v (advance j v)) :
      Steps index w ((cell.step advance w).outcome,
        (cell.step advance w).world.store index (cell.step advance w).after)

/-- A step changes nothing in any cell that a reset does not forget. -/
theorem Steps.initialCells {index : Nat} {w : World} {result : Outcome × World}
    (h : Steps index w result) : result.2.initialCells = w.initialCells := by
  induction h with
  | @mk index w cell advance hcell _ ih =>
    have hstepped : (cell.step advance w).world.initialCells = w.initialCells := by
      refine cell.step_keeps (I := fun v => v.initialCells = w.initialCells)
        (robust_initialCells w) w ?_ rfl
      intro ref name j hleaf v hv
      exact (ih ref name j hleaf v hv).trans hv
    rw [initialCells_store, hstepped]
    rw [hstepped, getElem?_initialCells, hcell, Option.map_some, Cell.reset_step]

/-- A step of a variable gives one result. -/
theorem Steps.unique {index : Nat} {w : World} {result other : Outcome × World}
    (h : Steps index w result) (h' : Steps index w other) : result = other := by
  induction h generalizing other with
  | @mk index w cell advance hcell hadvance ih =>
    cases h' with
    | @mk _ _ cell' advance' hcell' hadvance' =>
      rw [hcell] at hcell'
      cases hcell'
      have hsame : cell.step advance w = cell.step advance' w := by
        refine cell.step_congr (I := fun v => v.initialCells = w.initialCells)
          (robust_initialCells w) w ?_ rfl
        rintro l hl ref name j rfl v hv
        constructor
        · exact ih ref name j hl v hv (hadvance' ref name j hl v hv)
        · exact (hadvance ref name j hl v hv).initialCells.trans hv
      rw [hsame]

/-- Where references go backward, the recursion goes down. -/
theorem steps_stepVariable {w : World} (hw : Backward w.cells) {index : Nat}
    (hindex : index < w.cells.size) : Steps index w (stepVariable index w) := by
  induction index using Nat.strongRecOn generalizing w with
  | ind index ih =>
    have hcell : w.cells[index]? = some w.cells[index] := Array.getElem?_eq_getElem hindex
    rw [stepVariable_eq hcell]
    refine .mk (stepBelow index) hcell ?_
    intro ref name j hleaf v hv
    have hj : j < index := hw index _ hcell _ hleaf j rfl
    rw [stepBelow_of_lt hj]
    apply ih j hj (backward_of_initialCells hv hw)
    rw [size_of_initialCells hv]
    omega

end World

/-- The variable that a leaf reads or steps, by its name and its place. -/
def Leaf.variable? : Leaf → Option (String × Nat)
  | .read _ name index | .next _ name index => some (name, index)
  | _ => none

/-- The cells of the variable at a place refer to earlier variables only, each by its name. -/
structure Cell.RefersBefore (scope : Scope) (i : Nat) (c : Cell) : Prop where
  leaf : ∀ l ∈ c.leaves, ∀ name j, l.variable? = some (name, j) →
    j < i ∧ scope.index? name = some j
  copy : ∀ ref name body r, .copy ref name body r ∈ c.walk →
    ∃ j < i, scope.index? name = some j

theorem Scope.Compiled.refersBefore {scope : Scope} {cells : Array Cell}
    (hc : scope.Compiled cells) {i : Nat} {c : Cell} (hcell : cells[i]? = some c) :
    c.RefersBefore scope i := by
  obtain ⟨d, -, hbuild⟩ := hc.exists_build hcell
  constructor
  · intro l hl name j hvariable
    have hbound := boundIn_of_buildCell hbuild l hl
    have hindex : (scope.upTo i).index? name = some j := by
      cases l with
      | read ref name' index =>
        cases hvariable
        exact hbound
      | next ref name' index =>
        cases hvariable
        exact hbound.2
      | _ => cases hvariable
    obtain ⟨hname, hj⟩ := index?_eq_some_of_upTo hindex
    exact ⟨hj, hname⟩
  · intro ref name body r hcopy
    obtain ⟨j, hindex, -⟩ := copy_of_mem_walk hbuild hcopy
    obtain ⟨hname, hj⟩ := index?_eq_some_of_upTo hindex
    exact ⟨j, hj, hname⟩

namespace Model

/-- What compiling a forest gives, if building the cells of every variable ends. -/
inductive Compiles (settings : Settings) (forest : Forest) : Except Error Model → Prop
  | refused {error : Located ConstructionCause}
      (henums : Enumeration.declareAll [] forest.enums = .error error) :
      Compiles settings forest (.error (.ofConstruction error))
  | failed {enumerations : List Enumeration} {error : Error}
      (henums : Enumeration.declareAll [] forest.enums = .ok enumerations)
      (hcells : Scope.CompilesFrom { enumerations, declared := forest.declarations.map (·.name) }
        #[] forest.declarations (.error error)) :
      Compiles settings forest (.error error)
  | compiled {enumerations : List Enumeration} {scope : Scope} {cells : Array Cell}
      (henums : Enumeration.declareAll [] forest.enums = .ok enumerations)
      (hcells : Scope.CompilesFrom { enumerations, declared := forest.declarations.map (·.name) }
        #[] forest.declarations (.ok (scope, cells))) :
      Compiles settings forest (.ok { scope, cells, source := settings.source })

/-- Compiling ends for every forest, and gives the model or the error that compiling under a bound
gives. -/
theorem compiles_iff {settings : Settings} {forest : Forest} {result : Except Error Model} :
    Compiles settings forest result ↔ compile settings forest = result := by
  have hempty (enumerations : List Enumeration) : Scope.Compiled
      { enumerations, declared := forest.declarations.map (·.name) } #[] :=
    ⟨rfl, fun i hi => absurd hi (Nat.not_lt_zero i)⟩
  constructor
  · intro h
    cases h with
    | refused henums =>
      rw [compile, henums]
      rfl
    | failed henums hcells =>
      simp only [compile, henums, Except.mapError, bind, Except.bind,
        (hempty _).compilesFrom_iff.mp hcells]
    | compiled henums hcells =>
      simp only [compile, henums, Except.mapError, bind, Except.bind,
        (hempty _).compilesFrom_iff.mp hcells]
      rfl
  · rintro rfl
    cases henums : Enumeration.declareAll [] forest.enums with
    | error error =>
      simp only [compile, henums, Except.mapError, bind, Except.bind]
      exact .refused henums
    | ok enumerations =>
      simp only [compile, henums, Except.mapError, bind, Except.bind]
      split
      · rename_i error hcells
        exact .failed henums ((hempty enumerations).compilesFrom_iff.mpr hcells)
      · rename_i built hcells
        exact .compiled henums ((hempty enumerations).compilesFrom_iff.mpr hcells)

/-- A variable refers to another one if its cells do, by a leaf or by a copy at any depth. -/
def Refers (m : Model) (i j : Nat) : Prop :=
  ∃ c name, m.cells[i]? = some c ∧
    ((∃ l ∈ c.leaves, l.variable? = some (name, j)) ∨
      m.scope.index? name = some j ∧ ∃ ref body r, .copy ref name body r ∈ c.walk)

/-- References that go to earlier variables form no cycle. -/
theorem not_transGen_refers {m : Model}
    (hback : ∀ i (c : Cell), m.cells[i]? = some c → c.RefersBefore m.scope i) (i : Nat) :
    ¬Relation.TransGen m.Refers i i := by
  have hlt {i j : Nat} (h : m.Refers i j) : j < i := by
    obtain ⟨c, name, hcell, ⟨l, hl, hvariable⟩ | ⟨hindex, ref, body, r, hcopy⟩⟩ := h
    · exact ((hback i c hcell).leaf l hl name j hvariable).1
    · obtain ⟨k, hk, hname⟩ := (hback i c hcell).copy ref name body r hcopy
      rw [hindex] at hname
      cases hname
      exact hk
  have hpath {i j : Nat} (h : Relation.TransGen m.Refers i j) : j < i := by
    induction h with
    | single hstep => exact hlt hstep
    | tail _ hstep ih => exact Nat.lt_trans (hlt hstep) ih
  exact fun h => absurd (hpath h) (Nat.lt_irrefl i)

/-- Compiling ends for every forest. If it gives a model, every reference in the cells of a
variable, those inside copies at any depth included, is to a variable before it, the one with the
name that the reference has. So a step of any variable ends, in whatever state the variables are,
and no references form a cycle. -/
theorem compile_terminates (settings : Settings) (forest : Forest) :
    (∀ result, Compiles settings forest result ↔ compile settings forest = result) ∧
      ∀ m, compile settings forest = .ok m →
        (∀ i (c : Cell), m.cells[i]? = some c → c.RefersBefore m.scope i) ∧
        (∀ w : World, w.initialCells = m.world.initialCells → ∀ i < m.cells.size, ∀ result,
          World.Steps i w result ↔ World.stepVariable i w = result) ∧
        ∀ i, ¬Relation.TransGen m.Refers i i := by
  refine ⟨fun result => compiles_iff, fun m hm => ?_⟩
  obtain ⟨hcompiled, -⟩ := compile_eq_ok hm
  have hback : ∀ i (c : Cell), m.cells[i]? = some c → c.RefersBefore m.scope i :=
    fun i c hcell => hcompiled.refersBefore hcell
  refine ⟨hback, ?_, not_transGen_refers hback⟩
  intro w hw i hi result
  have hsteps : World.Steps i w (World.stepVariable i w) := by
    apply World.steps_stepVariable (World.backward_of_initialCells hw hcompiled.backward)
    rw [World.size_of_initialCells hw]
    exact hi
  constructor
  · exact hsteps.unique
  · rintro rfl
    exact hsteps

/-- A copy of a variable that holds a copy and a step of a third. -/
theorem compile_terminates_copies :
    let forest : Forest := { declarations := [
      ⟨"a", .pattern [.literal 1, .literal 2], none⟩,
      ⟨"b", .binary .add (.reference { path := "a", access? := some .copy })
        (.reference { path := "a.next" }), none⟩,
      ⟨"c", .reference { path := "b", access? := some .copy }, none⟩] }
    ∃ m, compile {} forest = .ok m ∧
      (∀ c : Cell, m.cells[2]? = some c → c.RefersBefore m.scope 2) ∧
      (∀ w : World, w.initialCells = m.world.initialCells → ∀ result,
        World.Steps 2 w result ↔ World.stepVariable 2 w = result) ∧
      ¬Relation.TransGen m.Refers 2 2 := by
  intro forest
  obtain ⟨m, hm, hsize⟩ : ∃ m, compile {} forest = .ok m ∧ m.cells.size = 3 := ⟨_, rfl, rfl⟩
  obtain ⟨hback, hsteps, hacyclic⟩ := (compile_terminates {} forest).2 m hm
  refine ⟨m, hm, hback 2, fun w hw => hsteps w hw 2 ?_, hacyclic 2⟩
  rw [hsize]
  decide

end Model

end Stimulus
