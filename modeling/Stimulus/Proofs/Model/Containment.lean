import Stimulus.Proofs.Model.Backward
import Stimulus.Proofs.Model.Replay

/-!
# Containment of failures

A cycle that fails, fails at one variable. The variables before it have made their steps, it keeps
its own report, and nothing behind it is touched; the cycle is not counted. The error names that
variable and its position, wherever below it the failure came from.
-/
namespace Stimulus

namespace World

/-- The variables from place `i` up to place `j`, without the last, step one after the other without
a failure, and lead from one world to another. -/
inductive Completes : Nat → World → Nat → World → Prop
  | refl (i : Nat) (w : World) : Completes i w i w
  | step {i j : Nat} {w v : World} {x : Reading} (hstep : (stepVariable i w).1 = .ok x)
      (hrest : Completes (i + 1) (stepVariable i w).2 j v) : Completes i w j v

/-- Where stepping all variables fails: the variables before are done, and the error is the one of
the first variable that fails. -/
theorem stepAll_eq_error {declarations : List Declaration} {i : Nat} {w : World} {e : Error}
    (h : (stepAll i declarations w).1 = some e) :
    ∃ k d v failure, declarations[k]? = some d ∧ Completes i w (i + k) v ∧
      (stepVariable (i + k) v).1 = .error failure ∧ e = d.error failure ∧
      (stepAll i declarations w).2 = (stepVariable (i + k) v).2 := by
  induction declarations generalizing i w with
  | nil => cases h
  | cons d rest ih =>
    simp only [stepAll] at h ⊢
    split at h
    · rename_i failure hfailure
      cases h
      exact ⟨0, d, w, failure, rfl, .refl i w, hfailure, rfl, rfl⟩
    · rename_i x hx
      obtain ⟨k, d', v, failure, hd', hbefore, hfailure, herror, hafter⟩ := ih h
      rw [Nat.add_assoc, Nat.add_comm 1 k] at hbefore hfailure hafter
      exact ⟨k + 1, d', v, failure, hd', .step hx hbefore, hfailure, herror, hafter⟩

theorem Completes.le {i j : Nat} {w v : World} (h : Completes i w j v) : i ≤ j := by
  induction h with
  | refl i w => exact Nat.le_refl i
  | step hstep hrest ih => omega

/-- Steps of variables before a place change nothing from that place on. -/
theorem Completes.cells_of_le {i j : Nat} {w v : World} (h : Completes i w j v) {k : Nat}
    (hk : j ≤ k) : v.cells[k]? = w.cells[k]? := by
  induction h with
  | refl i w => rfl
  | @step i j w v x hstep hrest ih =>
    have hle := hrest.le
    rw [ih hk]
    exact cells_stepBelow_of_le (i + 1) i w (by omega)

theorem Completes.initialCells {i j : Nat} {w v : World} (h : Completes i w j v) :
    v.initialCells = w.initialCells := by
  induction h with
  | refl i w => rfl
  | @step i j w v x hstep hrest ih => rw [ih, stepVariable, initialCells_stepBelow]

end World

/-- An evaluation error of a variable tells its name and its position, and it is no other error of
the variable's failure. -/
theorem Declaration.error_eq_evaluation {d : Declaration} {failure : Failure}
    {located : Located EvaluationCause} (h : d.error failure = .evaluation located) :
    located.variableName? = some d.name ∧ located.position? = d.position? := by
  cases failure with
  | cause cause =>
    cases h
    exact ⟨rfl, rfl⟩
  | fault fault => cases h

namespace Model

/-- A cycle fails where stepping all variables fails, and is not counted then. -/
theorem advance_eq_error {m : Model} {e : Error} (h : m.advance.outcome = .error e) :
    (m.world.stepAll 0 m.declarations).1 = some e ∧ m.advance.model.cycle = m.cycle := by
  unfold advance at h ⊢
  simp only at h ⊢
  split at h
  · rename_i other hother
    cases h
    exact ⟨hother, rfl⟩
  · cases h

/-- What calls leave of a compiled model: its variables have their cells, and these refer backward
only. -/
theorem backward_after {settings : Settings} {forest : Forest} {m : Model}
    (hm : compile settings forest = .ok m) (calls : List Call) :
    (m.after calls).cells.size = (m.after calls).declarations.length ∧
      Backward (m.after calls).cells := by
  obtain ⟨hcompiled, -⟩ := compile_eq_ok hm
  have horigin := m.sameOrigin_after calls
  have hinitial : (m.after calls).world.initialCells = m.world.initialCells := horigin.cells
  constructor
  · rw [declarations, horigin.scope, ← hcompiled.size]
    exact World.size_of_initialCells hinitial
  · exact World.backward_of_initialCells hinitial hcompiled.backward

/-- A cycle that fails does so at the variable of one declaration. The cycle is not counted, every
variable behind is as before the cycle, the variable keeps its report, and the variables before have
each made their step. The error is the one of that declaration: an evaluation error has its name and
its position. No reference inside the failing variable has gone beyond the variables before it. -/
theorem advance_error_contained {settings : Settings} {forest : Forest} {m₀ : Model}
    (hm : compile settings forest = .ok m₀) (calls : List Call) {e : Error}
    (h : (m₀.after calls).advance.outcome = .error e) :
    let m := m₀.after calls
    let m' := m.advance.model
    ∃ i d v failure, m.declarations[i]? = some d ∧
      World.Completes 0 m.world i v ∧ (v.stepVariable i).1 = .error failure ∧
      m'.cells = (v.stepVariable i).2.cells ∧ m'.cycle = m.cycle ∧
      (∀ j, i < j → m'.cells[j]? = m.cells[j]?) ∧
      (∃ before after, m.cells[i]? = some before ∧ m'.cells[i]? = some after ∧
        after.report = before.report) ∧
      e = d.error failure ∧ failure.InReach ∧
      ∀ located, e = .evaluation located →
        located.variableName? = some d.name ∧ located.position? = d.position? := by
  intro m m'
  obtain ⟨hsize, hback⟩ : m.cells.size = m.declarations.length ∧ Backward m.cells :=
    backward_after hm calls
  obtain ⟨hfails, hcycle⟩ : (m.world.stepAll 0 m.declarations).1 = some e ∧ m'.cycle = m.cycle :=
    advance_eq_error h
  obtain ⟨-, hcells, -⟩ := m.model_advance
  obtain ⟨i, d, v, failure, hd, hbefore, hfailure, herror, hafter⟩ := World.stepAll_eq_error hfails
  rw [Nat.zero_add] at hbefore hfailure hafter
  have hcells' : m'.cells = (v.stepVariable i).2.cells := by rw [hcells, hafter]
  have hlt : i < m.cells.size := by
    obtain ⟨hlt, -⟩ := List.getElem?_eq_some_iff.mp hd
    omega
  have hcell : m.cells[i]? = some m.cells[i] := Array.getElem?_eq_getElem hlt
  have hreached : v.cells[i]? = some m.cells[i] := by
    rw [hbefore.cells_of_le (Nat.le_refl i)]
    exact hcell
  refine ⟨i, d, v, failure, hd, hbefore, hfailure, hcells', hcycle, ?_, ?_, herror, ?_, ?_⟩
  · intro j hj
    rw [hcells', World.stepVariable, World.cells_stepBelow_of_le (i + 1) i v (by omega),
      hbefore.cells_of_le (by omega)]
    rfl
  · obtain ⟨after, hkept, hreport⟩ := World.report_stepVariable_of_error hreached hfailure
    exact ⟨m.cells[i], after, hcell, by rw [hcells', hkept], hreport⟩
  · exact World.inReach_stepBelow (w := m.world) hback (Nat.lt_succ_self i) hlt
      hbefore.initialCells hfailure
  · rw [herror]
    exact fun located hlocated => Declaration.error_eq_evaluation hlocated

/-- A variable whose second step in the cycle fails: the last variable steps it, and the error is
the last one's. -/
theorem advance_error_contained_next :
    let forest : Forest := { declarations := [
      ⟨"a", .pattern [.literal 1, .literal 2, .literal 0], none⟩,
      ⟨"b", .binary .div (.literal 6) (.reference { path := "a", access? := some .next }), none⟩,
      ⟨"c", .reference { path := "b", access? := some .next }, some { line := 3, column := 1 }⟩] }
    let calls := [.advance, .seed 5, .reset]
    ∃ m e, compile {} forest = .ok m ∧ (m.after calls).advance.outcome = .error e ∧
      (m.after calls).advance.model.cycle = (m.after calls).cycle ∧
        ∃ (i : Nat) (d : Declaration) (failure : Failure),
          (m.after calls).declarations[i]? = some d ∧ e = d.error failure ∧ failure.InReach := by
  intro forest calls
  obtain ⟨m, hm, hfails⟩ : ∃ m, compile {} forest = .ok m ∧
      (m.after calls).advance.outcome.toOption = none := ⟨_, rfl, by decide +kernel⟩
  cases h : (m.after calls).advance.outcome with
  | ok _ =>
    rw [h] at hfails
    cases hfails
  | error e =>
    obtain ⟨i, d, v, failure, hd, -, -, -, hcycle, -, -, herror, hreach, -⟩ :=
      advance_error_contained hm calls h
    exact ⟨m, e, hm, h, hcycle, i, d, failure, hd, herror, hreach⟩

end Model

end Stimulus
