import Stimulus.Proofs.Cell.Fault
import Stimulus.Proofs.Model.Choosers
import Stimulus.Proofs.Model.Containment
import Stimulus.Proofs.Scope.Copies

/-!
# Where cycles fault

A cycle that fails ends with an evaluation error of a variable, or with a fault that belongs to no
variable. The faults that are left after the checks come from a few kinds of expressions only, and
the declarations must have one of these.
-/
namespace Stimulus

open Stimulus.Sampling

namespace Enumeration

/-- Every declared enumeration has items. -/
theorem items_ne_nil_of_declareAll {others enumerations : List Enumeration}
    {declarations : List EnumDecl} (hothers : ∀ e ∈ others, e.items ≠ [])
    (h : declareAll others declarations = .ok enumerations) : ∀ e ∈ enumerations, e.items ≠ [] := by
  induction declarations generalizing others with
  | nil =>
    cases h
    exact hothers
  | cons d rest ih =>
    simp only [declareAll] at h
    split at h
    · cases h
    · rename_i hcause
      apply ih _ h
      rw [List.forall_mem_append, List.forall_mem_singleton]
      refine ⟨hothers, ?_⟩
      intro hempty
      have hitems : d.items = [] := by
        cases hitems : d.items with
        | nil => rfl
        | cons item more =>
          rw [EnumDecl.valuedItems, hitems] at hempty
          cases hempty
      rw [cause?, hitems] at hcause
      split at hcause
      · cases hcause
      · simp at hcause

end Enumeration

namespace Scope

theorem values_ne_nil {scope : Scope} (h : ∀ e ∈ scope.enumerations, e.items ≠ []) {name : String}
    {values : List Int} (hvalues : scope.enumValues? name = some values) : values ≠ [] := by
  obtain ⟨e, he, rfl⟩ := Option.map_eq_some_iff.mp hvalues
  rw [Enumeration.values, ne_eq, List.map_eq_nil_iff]
  exact h e (List.mem_of_find?_eq_some he)

/-- The expression of every declaration of a compiled scope has passed the checks. -/
theorem Compiled.nodeCause?_eq_none {scope : Scope} {cells : Array Cell} (hc : scope.Compiled cells)
    {d : Declaration} (hd : d ∈ scope.declarations) {e : Expr} (he : e ∈ d.expr.walk) :
    e.nodeCause? = none := by
  obtain ⟨i, hi, rfl⟩ := List.mem_iff_getElem.mp hd
  obtain ⟨c, -, hbuilt⟩ := hc.cell i hi
  obtain ⟨-, hcheck, -⟩ := compileDeclaration_eq_ok hbuilt
  unfold Expr.check at hcheck
  split at hcheck
  · cases hcheck
  · rename_i hcause
    exact Expr.cause?_eq_none_iff.mp hcause e he

/-- A node that the checks have let pass, and that belongs to the expression of a declaration. -/
structure Declares (scope : Scope) (node : Cell) : Prop where
  checked : node.Checked scope
  source : ∃ d ∈ scope.declarations, node.expr ∈ d.expr.walk

theorem Compiled.declares {scope : Scope} {cells : Array Cell} (hc : scope.Compiled cells)
    (henums : ∀ e ∈ scope.enumerations, e.items ≠ []) {i : Nat} {c : Cell}
    (hcell : cells[i]? = some c) {node : Cell} (hnode : node ∈ c.walk) : scope.Declares node := by
  obtain ⟨d, hd, hbuild⟩ := hc.exists_build hcell
  have hsource : ∃ d ∈ scope.declarations, node.expr ∈ d.expr.walk := by
    obtain ⟨hown | ⟨d', hd', hother⟩, -⟩ := source_of_mem_walk hbuild hnode
    · exact ⟨d, List.mem_of_getElem? hd, hown⟩
    · exact ⟨d', List.mem_of_mem_take hd', hother⟩
  refine ⟨⟨?_, ?_⟩, hsource⟩
  · obtain ⟨d', hd', hexpr⟩ := hsource
    exact hc.nodeCause?_eq_none hd' hexpr
  · rintro ref name values r rfl
    have hvalues : scope.enumValues? name = some values :=
      boundIn_of_buildCell hbuild _ (Cell.mem_leaves_of_mem_walk hnode)
    exact ⟨hvalues, values_ne_nil henums hvalues⟩

/-- Only what a reset keeps of a node decides where it belongs. -/
theorem Declares.of_reset {scope : Scope} {node : Cell} (h : scope.Declares node.reset) :
    scope.Declares node := by
  obtain ⟨⟨hcause, hvalues⟩, hsource⟩ := h
  rw [Cell.expr_reset] at hcause hsource
  refine ⟨⟨hcause, ?_⟩, hsource⟩
  rintro ref name values r rfl
  exact hvalues ref name values {} rfl

/-- In every state of a compiled scope's cells, the nodes are declared. -/
theorem Compiled.declares_of_initialCells {scope : Scope} {w v : World}
    (hc : scope.Compiled w.cells) (henums : ∀ e ∈ scope.enumerations, e.items ≠ [])
    (hv : v.initialCells = w.initialCells) {i : Nat} {c : Cell} (hcell : v.cells[i]? = some c)
    {node : Cell} (hnode : node ∈ c.walk) :
    scope.Declares node := by
  obtain ⟨before, hbefore, hreset⟩ := World.exists_cell_of_initialCells hv hcell
  rw [hc.reset_cell hbefore] at hreset
  apply Declares.of_reset
  apply hc.declares henums hbefore
  rw [hreset, Cell.walk_reset]
  exact List.mem_map_of_mem hnode

/-- A variable of a compiled scope faults only for the sake of an expression that can fault, of a
variable of the scope. -/
theorem Compiled.canFault_stepBelow {scope : Scope} {w : World} (hc : scope.Compiled w.cells)
    (henums : ∀ e ∈ scope.enumerations, e.items ≠ []) {bound index : Nat} (hindex : index < bound)
    (hbound : bound ≤ w.cells.size) {v : World} (hv : v.initialCells = w.initialCells)
    (hfits : v.AllChoosers Chooser.Fits) {fault : Fault}
    (h : (World.stepBelow bound index v).1 = .error (.fault fault)) :
    ∃ d ∈ scope.declarations, ∃ e ∈ d.expr.walk, e.CanFault scope fault := by
  induction bound generalizing index v with
  | zero => omega
  | succ bound ih =>
    have hreach := World.inReach_stepBelow hc.backward hindex hbound hv h
    rw [World.stepBelow] at h
    split at h
    · rename_i heq
      subst heq
      have hlt : index < v.cells.size := by
        rw [World.size_of_initialCells hv]
        omega
      have hcell : v.cells[index]? = some v.cells[index] := Array.getElem?_eq_getElem hlt
      rw [hcell] at h
      have hback := World.backward_of_initialCells hv hc.backward index _ hcell
      let I : World → Prop := fun u => u.initialCells = w.initialCells ∧ u.AllChoosers Chooser.Fits
      obtain ⟨node, hnode, u, ⟨hu, hufits⟩, hraises⟩ : Cell.RaisesWithin _ I v.cells[index] _ := by
        refine v.cells[index].raises_of_step (I := I) ?_ v ?_ ⟨hv, hfits⟩ h
        · exact fun _ _ hdraws hu => ⟨World.robust_initialCells w hdraws hu.1,
            World.robust_allChoosers _ hdraws hu.2⟩
        · rintro l hl ref name j rfl u ⟨hu, hufits⟩
          exact ⟨(World.initialCells_stepBelow index j u).trans hu,
            hufits.stepBelow Chooser.invariant_fits index j⟩
      by_cases hnext : ∃ ref name j r, node = .leaf (.next ref name j) r
      · obtain ⟨ref, name, j, r, rfl⟩ := hnext
        cases hraises with
        | leaf hstep =>
          have hj := hback _ (Cell.mem_leaves_of_mem_walk hnode) j rfl
          exact ih hj (by omega) hu hufits hstep
      · have hdeclares := hc.declares_of_initialCells henums hv hcell hnode
        obtain ⟨d, hd, hexpr⟩ := hdeclares.source
        refine ⟨d, hd, node.expr, hexpr, ?_⟩
        refine hraises.canFault hdeclares.checked ((hfits index _ hcell).of_mem_walk hnode) hreach
          ?_
        rintro ref name j r rfl
        exact hnext ⟨ref, name, j, r, rfl⟩
    · exact ih (by omega) (by omega) hv hfits h

end Scope

theorem World.Completes.allChoosers {P : Nat → Chooser → Prop} (hP : Chooser.Invariant P)
    {i j : Nat} {w v : World} (h : Completes i w j v) (hw : w.AllChoosers P) : v.AllChoosers P := by
  induction h with
  | refl i w => exact hw
  | @step i j w v x hstep hrest ih => exact ih (hw.stepBelow hP (i + 1) i)

namespace Model

/-- Every enumeration of a compiled model has items. -/
theorem items_ne_nil_of_compile {settings : Settings} {forest : Forest} {m : Model}
    (h : compile settings forest = .ok m) : ∀ e ∈ m.scope.enumerations, e.items ≠ [] := by
  obtain ⟨enumerations, henums, h⟩ := bind_eq_ok h
  obtain ⟨⟨scope, cells⟩, hcells, h⟩ := bind_eq_ok h
  cases h
  have hdeclared : Enumeration.declareAll [] forest.enums = .ok enumerations := by
    cases hall : Enumeration.declareAll [] forest.enums with
    | error error =>
      rw [hall] at henums
      cases henums
    | ok declared =>
      rw [hall] at henums
      cases henums
      rfl
  rw [Scope.scope_compileFrom hcells]
  exact Enumeration.items_ne_nil_of_declareAll (by simp) hdeclared

/-- A cycle that fails, in whatever state the calls before have left the model, ends with an
evaluation error that has the name and the position of a variable; or it ends with a fault, and then
some declaration has an expression that can fault so: a pattern without members, a shift, a range,
or a set with more members than there are words. The operands in the text of an evaluation error are
taken to be ones that may be written. -/
theorem advance_error_evaluation_or_fault {settings : Settings} {forest : Forest} {m : Model}
    (hm : compile settings forest = .ok m) (calls : List Call) {e : Error}
    (h : (m.after calls).advance.outcome = .error e) :
    (∃ d ∈ forest.declarations, ∃ cause,
      e = .evaluation { cause, variableName? := some d.name, position? := d.position? }) ∨
    ∃ fault, e = .fault fault ∧
      ∃ d ∈ forest.declarations, ∃ node ∈ d.expr.walk, node.CanFault m.scope fault := by
  obtain ⟨hcompiled, hdeclarations, -⟩ := compile_eq_ok hm
  have horigin := m.sameOrigin_after calls
  have hnames : (m.after calls).declarations = forest.declarations := by
    rw [declarations, horigin.scope, ← hdeclarations, declarations]
  obtain ⟨hfails, -⟩ := advance_eq_error h
  obtain ⟨i, d, v, failure, hd, hbefore, hfailure, rfl, -⟩ := World.stepAll_eq_error hfails
  rw [hnames] at hd
  rw [Nat.zero_add] at hbefore hfailure
  cases failure with
  | cause cause => exact .inl ⟨d, List.mem_of_getElem? hd, cause, rfl⟩
  | fault fault =>
    refine .inr ⟨fault, rfl, ?_⟩
    have hi : i < m.world.cells.size := by
      rw [world, hcompiled.size, ← declarations, hdeclarations]
      exact (List.getElem?_eq_some_iff.mp hd).1
    have hinitial : v.initialCells = m.world.initialCells :=
      hbefore.initialCells.trans horigin.cells
    have hfits : v.AllChoosers Chooser.Fits :=
      hbefore.allChoosers Chooser.invariant_fits
        (allChoosers_after Chooser.invariant_fits hm calls)
    rw [← hdeclarations]
    exact hcompiled.canFault_stepBelow (w := m.world) (items_ne_nil_of_compile hm)
      (Nat.lt_succ_self i) hi hinitial hfits hfailure

/-- A division by zero in a variable with a position. -/
theorem advance_error_evaluation_or_fault_div :
    let forest : Forest := { declarations := [
      ⟨"a", .binary .div (.literal 1) (.literal 0), some { line := 3, column := 5 }⟩] }
    ∃ m e, compile {} forest = .ok m ∧ (m.after [.advance]).advance.outcome = .error e ∧
      ∃ d ∈ forest.declarations, ∃ cause,
        e = .evaluation { cause, variableName? := some d.name, position? := d.position? } := by
  intro forest
  obtain ⟨m, cause, hm, hfails⟩ : ∃ m cause, compile {} forest = .ok m ∧
      (m.after [.advance]).advance.outcome = .error (.evaluation cause) := ⟨_, _, rfl, rfl⟩
  refine ⟨m, _, hm, hfails, ?_⟩
  obtain hevaluation | ⟨fault, hfault, -⟩ := advance_error_evaluation_or_fault hm [.advance] hfails
  · exact hevaluation
  · cases hfault

/-- Cycles that end with a fault, and so without a variable and a position: a shift by a negative
count, a pattern without members, and a range that reaches beyond the words. -/
theorem advance_fault :
    let faults (e : Expr) (fault : Fault) : Prop :=
      ∃ m, compile {} { declarations := [⟨"a", e, some { line := 3, column := 5 }⟩] } = .ok m ∧
        m.advance.outcome = .error (.fault fault)
    faults (.binary .shiftLeft (.literal 1) (.literal (-1))) .negativeShift ∧
      faults (.pattern []) .noSuchMember ∧
      faults (.range (.literal 0) (.literal (1 <<< 64))) .highOutOfUnsignedBounds := by
  intro faults
  refine ⟨⟨_, rfl, rfl⟩, ⟨_, rfl, rfl⟩, ⟨_, rfl, ?_⟩⟩
  rfl

end Model

end Stimulus
