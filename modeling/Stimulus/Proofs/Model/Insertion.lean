import Stimulus.Proofs.Model.Bystander
import Stimulus.Proofs.Model.Acceptance

/-!
# One more variable

A forest gets a further declaration, at any place. The others compile as before, to cells that know
them by their new places. If the new variable draws nothing and steps no other, both models go
through the same cycles: each variable has the same readings, fails in the same cycles with the same
error, and finds the source at the same position.
-/
namespace Stimulus

open Scope hiding bind

namespace Model

/-! ## Compiling with one more declaration -/

/-- The scope of a model has the enumerations and the declarations of its forest. -/
theorem scope_of_compile {settings : Settings} {forest : Forest} {m : Model}
    (h : compile settings forest = .ok m) :
    Enumeration.declareAll [] forest.enums = .ok (forest.enums.map EnumDecl.enumeration) ∧
      m.scope = forest.scope := by
  obtain ⟨enumerations, henums, h⟩ := bind_eq_ok h
  obtain ⟨⟨scope, cells⟩, hcells, h⟩ := bind_eq_ok h
  cases h
  obtain ⟨-, hok⟩ | ⟨-, error, herror⟩ :=
    Enumeration.accepts_declareAll [] List.nodup_nil forest.enums
  · rw [List.nil_append] at hok
    rw [hok] at henums
    cases henums
    exact ⟨hok, scope_compileFrom hcells⟩
  · rw [herror] at henums
    cases henums

/-- Every declaration of a forest has been compiled behind those before it. -/
theorem exists_cell_of_compile {settings : Settings} {forest : Forest} {m : Model}
    (h : compile settings forest = .ok m) {i : Nat} {d : Declaration}
    (hd : forest.declarations[i]? = some d) :
    ∃ c, m.cells[i]? = some c ∧ (m.scope.upTo i).compileDeclaration d = .ok c := by
  obtain ⟨hcompiled, hdeclarations, -⟩ := compile_eq_ok h
  rw [← hdeclarations] at hd
  obtain ⟨hi, rfl⟩ := List.getElem?_eq_some_iff.mp hd
  exact hcompiled.cell i hi

/-- A forest compiles exactly if its enumerations do and every declaration does behind those before
it. -/
theorem exists_compile_iff {settings : Settings} {forest : Forest} :
    (∃ m, compile settings forest = .ok m) ↔
      Enumeration.declareAll [] forest.enums = .ok (forest.enums.map EnumDecl.enumeration) ∧
        ∀ i d, forest.declarations[i]? = some d →
          ∃ c, (forest.scope.upTo i).compileDeclaration d = .ok c := by
  constructor
  · rintro ⟨m, hm⟩
    obtain ⟨henums, hscope⟩ := scope_of_compile hm
    refine ⟨henums, fun i d hd => ?_⟩
    obtain ⟨c, -, hbuilt⟩ := exists_cell_of_compile hm hd
    exact ⟨c, hscope ▸ hbuilt⟩
  · rintro ⟨henums, hall⟩
    obtain ⟨cells, hcells⟩ := @exists_compileFrom (forest.scope.upTo 0) _ hall #[]
    refine ⟨{ scope := forest.scope, cells, source := settings.source }, ?_⟩
    have hmodel : compile settings forest =
        (compileFrom (forest.scope.upTo 0) #[] forest.declarations >>= fun built =>
          .ok { scope := built.1, cells := built.2, source := settings.source }) := by
      rw [compile, henums]
      rfl
    rw [hmodel, hcells]
    rfl

section

variable {settings : Settings} {enums : List EnumDecl} {before after : List Declaration}
  {d : Declaration} {m m' : Model}
  (hm : compile settings { enums, declarations := before ++ after } = .ok m)
  (hfresh : ∀ other ∈ before ++ after, other.name ≠ d.name)
  (hpath : ∀ other ∈ before ++ after, Avoids (· = d.name) other.expr)

include hm hfresh hpath

/-- An old declaration compiles as before, to a cell with the new places. -/
theorem compileDeclaration_insert {j : Nat} {other : Declaration}
    (hother : (before ++ after)[j]? = some other) :
    ∃ c, m.cells[j]? = some c ∧
      ((Forest.scope { enums, declarations := before ++ d :: after }).upTo
        (displaced before.length j)).compileDeclaration other =
          .ok (c.renumber (displaced before.length)) := by
  obtain ⟨-, hscope⟩ := scope_of_compile hm
  obtain ⟨c, hc, hbuilt⟩ := exists_cell_of_compile hm hother
  have hmem := List.mem_of_getElem? hother
  have hembeds := (embeds_insert enums hfresh).upTo j
  rw [hscope] at hbuilt
  refine ⟨c, hc, hembeds.compileDeclaration ?_ (hfresh _ hmem) (hpath _ hmem) hbuilt⟩
  exact fun earlier hearlier => hpath earlier (List.mem_of_mem_take hearlier)

/-- Each old variable has its old cell, with the new places in it. -/
theorem cells_insert
    (hm' : compile settings { enums, declarations := before ++ d :: after } = .ok m') (j : Nat) :
    m'.cells[displaced before.length j]? =
      (m.cells[j]?).map (Cell.renumber (displaced before.length)) := by
  obtain ⟨-, hscope'⟩ := scope_of_compile hm'
  cases hother : (before ++ after)[j]? with
  | some other =>
    obtain ⟨c, hc, hbuilt⟩ := compileDeclaration_insert hm hfresh hpath hother
    have hother' : (before ++ d :: after)[displaced before.length j]? = some other := by
      rwa [getElem?_displaced]
    obtain ⟨c', hc', hbuilt'⟩ := exists_cell_of_compile hm' hother'
    rw [hscope', hbuilt] at hbuilt'
    cases hbuilt'
    rw [hc', hc, Option.map_some]
  | none =>
    have hother' : (before ++ d :: after)[displaced before.length j]? = none := by
      rwa [getElem?_displaced]
    obtain ⟨hcompiled, hdeclarations, -⟩ := compile_eq_ok hm
    obtain ⟨hcompiled', hdeclarations', -⟩ := compile_eq_ok hm'
    have hsize : m.cells.size = (before ++ after).length := by
      rw [hcompiled.size, ← declarations, hdeclarations]
    have hsize' : m'.cells.size = (before ++ d :: after).length := by
      rw [hcompiled'.size, ← declarations, hdeclarations']
    rw [List.getElem?_eq_none_iff, ← hsize] at hother
    rw [List.getElem?_eq_none_iff, ← hsize'] at hother'
    rw [Array.getElem?_eq_none hother, Array.getElem?_eq_none hother', Option.map_none]

/-- The forest with a further declaration compiles exactly if the expression of that declaration is
valid behind the variables before it. -/
theorem exists_compile_insert (henum : ∀ e ∈ enums, e.name ≠ d.name) :
    (∃ m', compile settings { enums, declarations := before ++ d :: after } = .ok m') ↔
      d.expr.check (some d.name) d.position? = .ok () ∧
        ∃ c, (m.scope.upTo before.length).buildCell { subject? := some d.name } d.position? d.expr =
          .ok c := by
  obtain ⟨henums, hscope⟩ := scope_of_compile hm
  -- The scopes before the new variable differ in the names that are declared later, and these are
  -- for error messages only.
  let old := (Forest.scope { enums, declarations := before ++ after }).upTo before.length
  let new := (Forest.scope { enums, declarations := before ++ d :: after }).upTo before.length
  have hold : old.declarations = before := List.take_left
  have hnew : new.declarations = before := List.take_left
  have hthere : Embeds id (fun _ => False) old new := .of_declarations_eq rfl (hnew.trans hold.symm)
  have hback : Embeds id (fun _ => False) new old := .of_declarations_eq rfl (hold.trans hnew.symm)
  have havoids (e : Expr) : Avoids (fun _ => False) e := fun _ _ h => h
  rw [exists_compile_iff, hscope]
  constructor
  · rintro ⟨-, hall⟩
    obtain ⟨c, hbuilt⟩ := hall before.length d (by simp)
    obtain ⟨-, hcheck, hbuild⟩ := compileDeclaration_eq_ok hbuilt
    exact ⟨hcheck, c.renumber id, hback.buildCell (fun _ _ => havoids _) (havoids _) hbuild⟩
  · rintro ⟨hcheck, c, hbuild⟩
    refine ⟨henums, fun j other hother => ?_⟩
    by_cases hj : j = before.length
    · subst hj
      obtain rfl : d = other := by simpa using hother
      have hname : new.nameCause? d = none := by
        refine (nameCause?_eq_none_iff rfl).mpr ⟨fun earlier hearlier => ?_, henum⟩
        exact hfresh earlier (List.mem_append_left _ (hnew ▸ hearlier))
      refine ⟨c.renumber id, ?_⟩
      change new.compileDeclaration d = _
      rw [Scope.compileDeclaration, hname, hcheck]
      exact hthere.buildCell (fun _ _ => havoids _) (havoids _) hbuild
    · obtain ⟨k, rfl⟩ := exists_eq_displaced hj
      rw [getElem?_displaced] at hother
      obtain ⟨c, -, hbuilt⟩ := compileDeclaration_insert hm hfresh hpath hother
      exact ⟨_, hbuilt⟩

end

/-! ## Cycles -/

/-- The place of the variable that the next cycle fails at. -/
def failing? (m : Model) : Option Nat := m.world.failing? 0 m.declarations

/-- The model after a number of cycles, those that fail included. -/
def cycled (m : Model) (n : Nat) : Model := m.after (List.replicate n .advance)

theorem cycled_succ (m : Model) (n : Nat) : m.cycled (n + 1) = (m.cycled n).advance.model := by
  rw [cycled, List.replicate_succ', after_append]
  rfl

theorem outcome_advance (m : Model) : m.advance.outcome =
    match (m.world.stepAll 0 m.declarations).1 with
    | some error => .error error
    | none => .ok () := by
  cases h : (m.world.stepAll 0 m.declarations).1 <;> simp only [advance, h]

/-- A cycle starts without refills. -/
theorem world_advance (m : Model) : m.advance.model.world =
    { (m.world.stepAll 0 m.declarations).2 with refills := #[] } := by
  obtain ⟨-, hcells, hsource⟩ := m.model_advance
  rw [world, hcells, hsource]

/-- Two models in states alike, the second one with a further variable, a still one. -/
structure Inserted (before after : List Declaration) (d : Declaration) (start : World)
    (m m' : Model) : Prop where
  old : m.declarations = before ++ after
  new : m'.declarations = before ++ d :: after
  world : World.Inserted before.length start m.world m'.world

section

variable {before after : List Declaration} {d : Declaration} {start : World} {m m' : Model}

/-- A cycle keeps two models alike, unless the further variable fails in it. -/
theorem Inserted.advance (hback : Backward start.cells)
    (hsize : start.cells.size = (before ++ after).length) (h : Inserted before after d start m m')
    (hd : m'.failing? ≠ some before.length) :
    m'.advance.outcome = m.advance.outcome ∧
      m'.failing? = m.failing?.map (displaced before.length) ∧
      Inserted before after d start m.advance.model m'.advance.model := by
  obtain ⟨hold, hnew, hworld⟩ := h
  rw [failing?, hnew] at hd
  obtain ⟨herror, hfailing, hcycled⟩ := hworld.cycle hback hsize hd
  refine ⟨?_, ?_, ?_, ?_, ?_⟩
  · rw [outcome_advance, outcome_advance, hold, hnew, herror]
  · rw [failing?, failing?, hold, hnew, hfailing]
  · rw [declarations, m.model_advance.1, ← declarations, hold]
  · rw [declarations, m'.model_advance.1, ← declarations, hnew]
  · rw [world_advance, world_advance, hold, hnew]
    exact ⟨⟨hcycled.places.cells, hcycled.places.source, rfl⟩, hcycled.initialCells, hcycled.still⟩

/-- So do any number of cycles. -/
theorem Inserted.cycled (hback : Backward start.cells)
    (hsize : start.cells.size = (before ++ after).length) (h : Inserted before after d start m m')
    {n : Nat} (hd : ∀ k < n, (m'.cycled k).failing? ≠ some before.length) :
    Inserted before after d start (m.cycled n) (m'.cycled n) := by
  induction n with
  | zero => exact h
  | succ n ih =>
    have hn := ih fun k hk => hd k (by omega)
    rw [cycled_succ, cycled_succ]
    exact (hn.advance hback hsize (hd n (by omega))).2.2

/-- Models alike have the same readings, without the one of the further variable. -/
theorem Inserted.readings (h : Inserted before after d start m m') :
    m'.readings.eraseIdx before.length = m.readings := by
  refine List.ext_getElem? fun j => ?_
  have hplace : (m'.readings.eraseIdx before.length)[j]? =
      m'.readings[displaced before.length j]? := by
    rw [List.getElem?_eraseIdx, displaced]
    split <;> rfl
  have hcells : m'.cells[displaced before.length j]? =
      (m.cells[j]?).map (Cell.renumber (displaced before.length)) := h.world.places.cells j
  rw [hplace]
  simp only [Model.readings, List.getElem?_map, Array.getElem?_toList, hcells, Option.map_map,
    Function.comp_def, Cell.reading_renumber]

end

/-- A forest that compiles gets a further declaration, whose name is no other's and no path in the
forest. Then it compiles exactly if the new expression is valid at its place. If the cells of the
new variable, those of copies included, neither draw nor step another variable, then as long as it
does not fail itself, all cycles are as before: the readings of the other variables and the source
are the same after each, and each cycle succeeds, or fails with the same error at the same
variable. -/
theorem compile_insert {settings : Settings} {enums : List EnumDecl}
    {before after : List Declaration} {d : Declaration} {m : Model}
    (hm : compile settings { enums, declarations := before ++ after } = .ok m)
    (hvariable : ∀ other ∈ before ++ after, other.name ≠ d.name)
    (henum : ∀ e ∈ enums, e.name ≠ d.name)
    (hpath : ∀ other ∈ before ++ after, ∀ ref, .reference ref ∈ other.expr.walk →
      ref.path ≠ d.name) :
    let inserted : Forest := { enums, declarations := before ++ d :: after }
    let i := before.length
    ((∃ m', compile settings inserted = .ok m') ↔
      d.expr.check (some d.name) d.position? = .ok () ∧
        ∃ c, (m.scope.upTo i).buildCell { subject? := some d.name } d.position? d.expr = .ok c) ∧
    ∀ m' c, compile settings inserted = .ok m' → m'.cells[i]? = some c → c.Still →
      ∀ n, (∀ k < n, (m'.cycled k).failing? ≠ some i) →
        (∀ k ≤ n, (m'.cycled k).readings.eraseIdx i = (m.cycled k).readings ∧
          (m'.cycled k).source = (m.cycled k).source) ∧
        ∀ k < n, (m'.cycled k).advance.outcome = (m.cycled k).advance.outcome ∧
          (m'.cycled k).failing? = (m.cycled k).failing?.map (displaced i) := by
  intro inserted i
  refine ⟨exists_compile_insert hm hvariable hpath henum, fun m' c hm' hc hstill n hd => ?_⟩
  obtain ⟨hcompiled, hdeclarations, hsource, -⟩ := compile_eq_ok hm
  obtain ⟨-, hdeclarations', hsource', -⟩ := compile_eq_ok hm'
  have hback : Backward m.world.cells := hcompiled.backward
  have hsize : m.world.cells.size = (before ++ after).length := by
    rw [world, hcompiled.size, ← declarations, hdeclarations]
  have hplaces : World.Places (displaced i) m.world m'.world :=
    ⟨cells_insert hm hvariable hpath hm', hsource'.trans hsource.symm, rfl⟩
  have hstart : Inserted before after d m.world m m' :=
    ⟨hdeclarations, hdeclarations', hplaces, rfl, c, hc, hstill⟩
  have hcycled (k : Nat) (hk : k ≤ n) :
      Inserted before after d m.world (m.cycled k) (m'.cycled k) :=
    hstart.cycled hback hsize fun j hj => hd j (by omega)
  constructor
  · intro k hk
    exact ⟨(hcycled k hk).readings, (hcycled k hk).world.places.source⟩
  · intro k hk
    obtain ⟨houtcome, hfailing, -⟩ := (hcycled k (by omega)).advance hback hsize (hd k hk)
    exact ⟨houtcome, hfailing⟩

/-- A helper that copies a variable, before one that draws and one that fails in every third
cycle. -/
theorem compile_insert_helper :
    let a : Declaration := ⟨"a", .pattern [.literal 1, .literal 2, .literal 0], none⟩
    let b : Declaration := ⟨"b", .sample [.literal 3, .reference { path := "a" }], none⟩
    let c : Declaration := ⟨"c", .binary .div (.reference { path := "b" })
      (.reference { path := "a" }), none⟩
    let helper : Declaration := ⟨"helper", .binary .add
      (.reference { path := "a", access? := some .copy }) (.reference { path := "a" }), none⟩
    ∃ m m', compile {} { declarations := [a] ++ [b, c] } = .ok m ∧
      compile {} { declarations := [a] ++ helper :: [b, c] } = .ok m' ∧
      (m'.cycled 2).failing? = some 3 ∧
      ∀ k ≤ 3, (m'.cycled k).readings.eraseIdx 1 = (m.cycled k).readings ∧
        (m'.cycled k).source = (m.cycled k).source := by
  intro a b c helper
  obtain ⟨m, hm⟩ : ∃ m, compile {} { declarations := [a] ++ [b, c] } = .ok m := ⟨_, rfl⟩
  obtain ⟨m', hm', cell, hcell, hstill, hfirst, hfailing⟩ : ∃ m',
      compile {} { declarations := [a] ++ helper :: [b, c] } = .ok m' ∧
      ∃ cell, m'.cells[1]? = some cell ∧ cell.Still ∧
        (∀ k < 3, (m'.cycled k).failing? ≠ some 1) ∧ (m'.cycled 2).failing? = some 3 := by
    refine ⟨_, rfl, _, rfl, ?_, by decide +kernel, by decide +kernel⟩
    simp [Cell.Still, Cell.walk, Cell.walkMembers, Cell.Quiet]
  have hpath : ∀ other ∈ [a] ++ [b, c], ∀ ref, .reference ref ∈ other.expr.walk →
      ref.path ≠ helper.name := by
    simp [a, b, c, helper, Expr.walk, Expr.walkMembers]
  obtain ⟨-, hcycles⟩ := compile_insert (d := helper) hm (by simp [a, b, c, helper])
    (by simp) hpath
  obtain ⟨hsame, -⟩ := hcycles m' cell hm' hcell hstill 3 hfirst
  exact ⟨m, m', hm, hm', hfailing, hsame⟩

end Model

end Stimulus
