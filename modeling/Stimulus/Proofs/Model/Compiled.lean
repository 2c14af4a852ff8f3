import Stimulus.Proofs.Cell.Binding
import Stimulus.Model.Compile

/-!
# Compiled models

In a compiled model every variable has the cells of its declaration, built in the scope of the
variables before it.
-/
namespace Stimulus

namespace Scope

/-- The scope of the variables before a place. -/
def upTo (scope : Scope) (i : Nat) : Scope :=
  { scope with declarations := scope.declarations.take i }

@[simp] theorem declarations_upTo (scope : Scope) (i : Nat) :
    (scope.upTo i).declarations = scope.declarations.take i := rfl

@[simp] theorem declarations_declare (scope : Scope) (d : Declaration) :
    (scope.declare d).declarations = scope.declarations ++ [d] := rfl

theorem upTo_declare_of_le (scope : Scope) (d : Declaration) {i : Nat}
    (h : i ≤ scope.declarations.length) : (scope.declare d).upTo i = scope.upTo i := by
  simp only [upTo, declare, List.take_append_of_le_length h]

theorem upTo_declare_length (scope : Scope) (d : Declaration) :
    (scope.declare d).upTo scope.declarations.length = scope := by
  simp only [upTo, declare, List.take_left]

/-- What compiling a declaration has checked and built. -/
theorem compileDeclaration_eq_ok {scope : Scope} {d : Declaration} {cell : Cell}
    (h : scope.compileDeclaration d = .ok cell) :
    scope.nameCause? d = none ∧ d.expr.check (some d.name) d.position? = .ok () ∧
      scope.buildCell { subject? := some d.name } d.position? d.expr = .ok cell := by
  unfold compileDeclaration at h
  split at h
  · cases h
  · rename_i hname
    obtain ⟨_, hcheck, hbuild⟩ := bind_eq_ok h
    refine ⟨hname, ?_, hbuild⟩
    cases hchecked : d.expr.check (some d.name) d.position? with
    | error e => simp [hchecked, Except.mapError] at hcheck
    | ok _ => rfl

/-- Every variable of a scope has the cells of its declaration. -/
structure Compiled (scope : Scope) (cells : Array Cell) : Prop where
  size : cells.size = scope.declarations.length
  cell : ∀ i (h : i < scope.declarations.length), ∃ c, cells[i]? = some c ∧
    (scope.upTo i).compileDeclaration scope.declarations[i] = .ok c

theorem Compiled.empty (enumerations : List Enumeration) (declared : List String) :
    Compiled { enumerations, declared } #[] :=
  ⟨rfl, fun i hi => absurd hi (Nat.not_lt_zero i)⟩

/-- Every cell of a compiled scope is built of a declaration, in the scope before it. -/
theorem Compiled.exists_build {scope : Scope} {cells : Array Cell} (hc : scope.Compiled cells)
    {i : Nat} {c : Cell} (h : cells[i]? = some c) :
    ∃ d, scope.declarations[i]? = some d ∧
      (scope.upTo i).buildCell { subject? := some d.name } d.position? d.expr = .ok c := by
  obtain ⟨hlt, -⟩ := Array.getElem?_eq_some_iff.mp h
  rw [hc.size] at hlt
  obtain ⟨c', hc', hbuilt⟩ := hc.cell i hlt
  rw [h] at hc'
  cases hc'
  obtain ⟨-, -, hbuild⟩ := compileDeclaration_eq_ok hbuilt
  exact ⟨scope.declarations[i], List.getElem?_eq_getElem hlt, hbuild⟩

/-- Compiled cells are as a reset leaves them. -/
theorem Compiled.reset_cell {scope : Scope} {cells : Array Cell} (hc : scope.Compiled cells)
    {i : Nat} {c : Cell} (h : cells[i]? = some c) : c.reset = c := by
  obtain ⟨d, -, hbuild⟩ := hc.exists_build h
  exact reset_buildCell hbuild

theorem Compiled.declare {scope : Scope} {cells : Array Cell} (hc : scope.Compiled cells)
    {d : Declaration} {cell : Cell} (h : scope.compileDeclaration d = .ok cell) :
    (scope.declare d).Compiled (cells.push cell) where
  size := by simp [hc.size]
  cell i hi := by
    simp only [declarations_declare, List.length_append, List.length_singleton] at hi
    by_cases hlast : i = scope.declarations.length
    · subst hlast
      refine ⟨cell, ?_, ?_⟩
      · rw [← hc.size, Array.getElem?_push_size]
      · simpa [upTo_declare_length] using h
    · have hlt : i < scope.declarations.length := by omega
      obtain ⟨c, hcell, hbuilt⟩ := hc.cell i hlt
      refine ⟨c, ?_, ?_⟩
      · rw [Array.getElem?_push_lt (hc.size ▸ hlt), ← hcell, Array.getElem?_eq_getElem]
      · simpa [upTo_declare_of_le scope d (Nat.le_of_lt hlt), List.getElem_append_left hlt]
          using hbuilt

/-- Compiling adds the declarations to the scope and nothing else. -/
theorem scope_compileFrom {scope scope' : Scope} {cells cells' : Array Cell}
    {declarations : List Declaration}
    (h : compileFrom scope cells declarations = .ok (scope', cells')) :
    scope' = { scope with declarations := scope.declarations ++ declarations } := by
  induction declarations generalizing scope cells with
  | nil =>
    cases h
    rw [List.append_nil]
  | cons d rest ih =>
    simp only [compileFrom] at h
    split at h
    · cases h
    · rw [ih h]
      simp [declare]

theorem compileFrom_compiled {scope scope' : Scope} {cells cells' : Array Cell}
    {declarations : List Declaration} (hc : scope.Compiled cells)
    (h : compileFrom scope cells declarations = .ok (scope', cells')) :
    scope'.Compiled cells' := by
  induction declarations generalizing scope cells with
  | nil =>
    cases h
    exact hc
  | cons d rest ih =>
    simp only [compileFrom] at h
    split at h
    · cases h
    · rename_i cell hcell
      exact ih (hc.declare hcell) h

end Scope

namespace Model

/-- What compiling a forest gives. The settings are used for the source only. -/
theorem compile_eq_ok {settings : Settings} {forest : Forest} {m : Model}
    (h : compile settings forest = .ok m) :
    m.scope.Compiled m.cells ∧ m.declarations = forest.declarations ∧
      m.source = settings.source ∧ m.cycle = 0 ∧
      ∀ settings' : Settings,
        compile settings' forest = .ok { m with source := settings'.source } := by
  obtain ⟨enumerations, henums, h⟩ := bind_eq_ok h
  obtain ⟨⟨scope, cells⟩, hcells, h⟩ := bind_eq_ok h
  cases h
  refine ⟨Scope.compileFrom_compiled (.empty _ _) hcells, ?_, rfl, rfl, fun settings' => ?_⟩
  · rw [declarations, Scope.scope_compileFrom hcells, List.nil_append]
  · simp only [compile, henums, bind, Except.bind, hcells]
    rfl

end Model

end Stimulus
