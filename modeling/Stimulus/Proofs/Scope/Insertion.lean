import Mathlib.Order.Monotone.Basic
import Stimulus.Proofs.Cell.Renumber
import Stimulus.Proofs.Scope.Copies
import Stimulus.Proofs.Scope.Resolution

/-!
# Scopes with more variables

A scope that holds the variables of another one at later places, and others between them. As long
as no reference uses the name of one of these others, the same expressions are built in both scopes,
and the cells differ in the places of the variables only.
-/
namespace Stimulus

variable {σ : Nat → Nat}

namespace Cell

variable {bind bind' : Identifier → Except Error Cell}

theorem buildMembers_map {members : List Expr}
    (h : ∀ e ∈ members, build (fun ref => (bind ref).map (renumber σ)) e =
      (build bind e).map (renumber σ)) :
    buildMembers (fun ref => (bind ref).map (renumber σ)) members =
      (buildMembers bind members).map (renumberMembers σ) := by
  induction members with
  | nil => rfl
  | cons e rest ih =>
    rw [List.forall_mem_cons] at h
    simp only [buildMembers, h.1, ih h.2]
    cases build bind e with
    | error error => rfl
    | ok c => cases buildMembers bind rest <;> rfl

theorem choose_map (chooser : Except Fault Chooser) (members : List Cell) :
    choose chooser (renumberMembers σ members) = (choose chooser members).map (renumber σ) := by
  cases chooser <;> rfl

/-- Where the cells of references get new places, so does the cell that is built of them. -/
theorem build_map (e : Expr) : build (fun ref => (bind ref).map (renumber σ)) e =
    (build bind e).map (renumber σ) := by
  induction e using Expr.induct_members with
  | hexpr e ih =>
    cases e with
    | literal | item | reference => rfl
    | range a b | binary op a b =>
      simp only [Expr.members, List.forall_mem_cons] at ih
      simp only [build, ih]
      cases build bind a with
      | error error => rfl
      | ok x => cases build bind b <;> rfl
    | sequence a b d =>
      simp only [Expr.members, List.forall_mem_cons] at ih
      simp only [build, ih]
      cases build bind a with
      | error error => rfl
      | ok x =>
        cases build bind b with
        | error error => rfl
        | ok y => cases build bind d <;> rfl
    | unary op a =>
      simp only [Expr.members, List.forall_mem_cons] at ih
      simp only [build, ih]
      cases build bind a <;> rfl
    | pattern members | sample members =>
      have hcells := buildMembers_map ih
      simp only [Expr.members] at hcells
      simp only [build, hcells]
      cases buildMembers bind members <;> rfl
    | pool members =>
      have hcells := buildMembers_map ih
      simp only [Expr.members] at hcells
      simp only [build, hcells]
      cases buildMembers bind members with
      | error error => rfl
      | ok cells =>
        have hlength : (renumberMembers σ cells).length = cells.length := by
          rw [renumberMembers_eq_map, List.length_map]
        change choose (Chooser.ofPool (renumberMembers σ cells).length) _ = _
        rw [hlength]
        exact choose_map _ cells
    | weightedSample members | weightedPool members =>
      have hcells := buildMembers_map ih
      simp only [Expr.members] at hcells
      simp only [build, buildWeighted_eq, hcells]
      cases buildMembers bind (members.map Prod.snd) with
      | error error => rfl
      | ok cells => exact choose_map _ cells

/-- A cell that could be built is built with new places, if those of its references are. -/
theorem build_renumber {e : Expr} {c : Cell} (h : build bind e = .ok c)
    (hbind : ∀ ref, .reference ref ∈ e.walk → ∀ cell, bind ref = .ok cell →
      bind' ref = .ok (cell.renumber σ)) : build bind' e = .ok (c.renumber σ) := by
  have hcongr : build bind' e = build (fun ref => (bind ref).map (renumber σ)) e := by
    apply build_congr
    intro ref href
    obtain ⟨cell, hcell⟩ := exists_bound_of_build h href
    rw [hbind ref href cell hcell, hcell]
    rfl
  rw [hcongr, build_map, h]
  rfl

end Cell

/-- The scope of all names of a forest. -/
def Forest.scope (forest : Forest) : Scope where
  enumerations := forest.enums.map EnumDecl.enumeration
  declarations := forest.declarations
  declared := forest.declarations.map (·.name)

/-- The target with the place of its variable given anew. -/
def Target.renumber (σ : Nat → Nat) : Target → Target
  | .read name index => .read name (σ index)
  | .next name index => .next name (σ index)
  | .copy name index => .copy name (σ index)
  | t => t

namespace Scope

/-- A scope has the variables of another one at new places, in the same order. The variables that it
has besides are called by new names. -/
structure Embeds (σ : Nat → Nat) (new : String → Prop) (scope scope' : Scope) : Prop where
  mono : StrictMono σ
  enumerations : scope'.enumerations = scope.enumerations
  declaration : ∀ j d, scope.declarations[j]? = some d → scope'.declarations[σ j]? = some d
  index : ∀ name, ¬new name → scope'.index? name = (scope.index? name).map σ
  free : ∀ name, new name → scope.index? name = none

/-- An expression none of whose references has a new path. -/
def Avoids (new : String → Prop) (e : Expr) : Prop :=
  ∀ ref, .reference ref ∈ e.walk → ¬new ref.path

namespace Embeds

variable {new : String → Prop} {scope scope' : Scope} {use : Use} {path : String}
  {ref : Identifier} {target : Target} {position? : Option Position} {e : Expr} {c : Cell}

/-- Scopes with the same variables need no new places. -/
theorem of_declarations_eq (henums : scope'.enumerations = scope.enumerations)
    (hdeclarations : scope'.declarations = scope.declarations) :
    Embeds id (fun _ => False) scope scope' where
  mono := strictMono_id
  enumerations := henums
  declaration j d hd := by rwa [hdeclarations]
  index name _ := by rw [index?, index?, hdeclarations, Option.map_id, id]
  free name h := h.elim

theorem index?_eq_some (h : Embeds σ new scope scope') {name : String} {k : Nat}
    (hk : scope.index? name = some k) : scope'.index? name = some (σ k) := by
  have hold : ¬new name := by
    intro hnew
    rw [h.free name hnew] at hk
    cases hk
  rw [h.index name hold, hk, Option.map_some]

theorem resolveVariable (h : Embeds σ new scope scope') {access? : Option Access}
    (htarget : scope.resolveVariable use path access? = .ok target) :
    scope'.resolveVariable use path access? = .ok (target.renumber σ) := by
  unfold Scope.resolveVariable at htarget ⊢
  split at htarget
  · cases htarget
  · rename_i k hk
    rw [h.index?_eq_some hk]
    split at htarget
    · cases htarget
      rfl
    · split at htarget
      · rename_i hallow
        cases htarget
        simp only [hallow, if_true]
        rfl
      · cases htarget
    · cases htarget
      rfl
    · cases htarget
      rfl

theorem resolvePath (h : Embeds σ new scope scope') (hpath : ¬new path)
    (htarget : scope.resolvePath use path = .ok target) :
    scope'.resolvePath use path = .ok (target.renumber σ) := by
  have hitem : scope'.itemValue? path = scope.itemValue? path := by
    rw [itemValue?, itemValue?, h.enumerations]
  have hbare : scope'.bareItems path = scope.bareItems path := by
    rw [bareItems, bareItems, h.enumerations]
  have henum : scope'.enumValues? path = scope.enumValues? path := by
    rw [enumValues?, enumValues?, h.enumerations]
  unfold Scope.resolvePath at htarget ⊢
  rw [hitem, hbare, henum, h.index path hpath]
  split at htarget
  · cases htarget
    rfl
  · split at htarget
    · cases htarget
      rfl
    · cases htarget
    · split at htarget
      · cases htarget
        rfl
      · cases hk : scope.index? path with
        | some k =>
          rw [hk] at htarget
          exact h.resolveVariable htarget
        | none =>
          rw [hk] at htarget
          cases hsplit : splitAccess? path with
          | none | some split =>
            rw [hsplit] at htarget
            exact h.resolveVariable htarget

/-- A reference keeps its target, at a new place, unless its path is a new name. -/
theorem resolveTarget (h : Embeds σ new scope scope') (hpath : ¬new ref.path)
    (htarget : scope.resolveTarget use ref = .ok target) :
    scope'.resolveTarget use ref = .ok (target.renumber σ) := by
  unfold Scope.resolveTarget at htarget ⊢
  split at htarget
  · exact h.resolvePath hpath htarget
  · exact h.resolveVariable htarget

theorem bind (h : Embeds σ new scope scope') {body body' : Nat → Except Error Cell}
    (hbody : ∀ j copied, body j = .ok copied → body' (σ j) = .ok (copied.renumber σ))
    (hpath : ¬new ref.path) (hc : scope.bind use body position? ref = .ok c) :
    scope'.bind use body' position? ref = .ok (c.renumber σ) := by
  obtain ⟨target, htarget, hcell⟩ := resolveTarget_of_bind hc
  rw [bind_of_resolveTarget (h.resolveTarget hpath htarget)]
  cases target with
  | copy name j =>
    obtain ⟨copied, hcopied, rfl⟩ := cellOf_copy_eq_ok hcell
    simp only [Target.renumber, cellOf, hbody j copied hcopied]
    rfl
  | constant | enumeration | read | next =>
    cases hcell
    rfl

/-- The cells for a copy are built as before, by induction on the place of the copied variable. -/
theorem bodyBelow (h : Embeds σ new scope scope')
    (hold : ∀ d ∈ scope.declarations, Avoids new d.expr) {j bound bound' : Nat}
    (hj : σ j < bound') (hc : scope.bodyBelow use bound j = .ok c) :
    scope'.bodyBelow use bound' (σ j) = .ok (c.renumber σ) := by
  induction j using Nat.strongRecOn generalizing bound bound' c with
  | ind j ih =>
    obtain ⟨-, d, hd, hbuilt⟩ := bodyBelow_eq_ok hc
    rw [bodyBelow_eq hj (h.declaration j d hd)]
    refine Cell.build_renumber hbuilt fun ref href cell hcell => ?_
    refine h.bind (fun k copied hcopied => ?_) (hold d (List.mem_of_getElem? hd) ref href) hcell
    obtain ⟨hk, -⟩ := bodyBelow_eq_ok hcopied
    exact ih k hk (h.mono hk) hcopied

theorem buildCell (h : Embeds σ new scope scope')
    (hold : ∀ d ∈ scope.declarations, Avoids new d.expr) (he : Avoids new e)
    (hc : scope.buildCell use position? e = .ok c) :
    scope'.buildCell use position? e = .ok (c.renumber σ) := by
  refine Cell.build_renumber hc fun ref href cell hcell => ?_
  refine h.bind (fun k copied hcopied => ?_) (he ref href) hcell
  obtain ⟨-, d, hd, -⟩ := bodyBelow_eq_ok hcopied
  obtain ⟨hk, -⟩ := List.getElem?_eq_some_iff.mp (h.declaration k d hd)
  exact h.bodyBelow hold hk hcopied

/-- A declaration that compiles does so with more variables before it, too. -/
theorem compileDeclaration (h : Embeds σ new scope scope')
    (hold : ∀ d ∈ scope.declarations, Avoids new d.expr) {d : Declaration} (hname : ¬new d.name)
    (hd : Avoids new d.expr) (hc : scope.compileDeclaration d = .ok c) :
    scope'.compileDeclaration d = .ok (c.renumber σ) := by
  obtain ⟨hcause, hcheck, hbuild⟩ := compileDeclaration_eq_ok hc
  have hsame : scope'.nameCause? d = scope.nameCause? d := by
    rw [nameCause?, nameCause?, h.index _ hname, Option.isSome_map, enumValues?, enumValues?,
      h.enumerations]
  rw [Scope.compileDeclaration, hsame, hcause, hcheck]
  exact h.buildCell hold hd hbuild

/-- What holds of two scopes holds of the variables before a place. -/
theorem upTo (h : Embeds σ new scope scope') (i : Nat) :
    Embeds σ new (scope.upTo i) (scope'.upTo (σ i)) where
  mono := h.mono
  enumerations := h.enumerations
  declaration j d hd := by
    rw [declarations_upTo, List.getElem?_take] at hd ⊢
    split at hd
    · rename_i hj
      rw [if_pos (h.mono hj)]
      exact h.declaration j d hd
    · cases hd
  index name hname := by
    rw [index?_upTo, index?_upTo, h.index name hname]
    cases scope.index? name with
    | none => rfl
    | some k => simp only [Option.map_some, Option.filter_some, decide_eq_true_eq, h.mono.lt_iff_lt,
        apply_ite (Option.map σ), Option.map_none]
  free name hname := by rw [index?_upTo, h.free name hname, Option.filter_none]

end Embeds

/-- The place of the variable at place `j` once another one is put in at place `i`. -/
def displaced (i j : Nat) : Nat := if j < i then j else j + 1

theorem strictMono_displaced (i : Nat) : StrictMono (displaced i) := by
  intro j k hjk
  simp only [displaced]
  split <;> split <;> omega

theorem displaced_ne (i j : Nat) : displaced i j ≠ i := by
  simp only [displaced]
  split <;> omega

/-- Every place but one is the new place of a variable. -/
theorem exists_eq_displaced {i k : Nat} (h : k ≠ i) : ∃ j, k = displaced i j := by
  by_cases hk : k < i
  · exact ⟨k, (if_pos hk).symm⟩
  · refine ⟨k - 1, ?_⟩
    rw [displaced, if_neg (by omega)]
    omega

theorem getElem?_displaced {α : Type} (before after : List α) (a : α) (j : Nat) :
    (before ++ a :: after)[displaced before.length j]? = (before ++ after)[j]? := by
  simp only [displaced]
  split
  · rename_i hj
    rw [List.getElem?_append_left hj, List.getElem?_append_left hj]
  · rename_i hj
    rw [List.getElem?_append_right (by omega), List.getElem?_append_right (by omega),
      show j + 1 - before.length = j - before.length + 1 by omega, List.getElem?_cons_succ]

/-- The scope of a forest embeds in the one with a further variable under a new name. -/
theorem embeds_insert (enums : List EnumDecl) {before after : List Declaration} {d : Declaration}
    (hfresh : ∀ other ∈ before ++ after, other.name ≠ d.name) :
    Embeds (displaced before.length) (· = d.name)
      (Forest.scope { enums, declarations := before ++ after })
      (Forest.scope { enums, declarations := before ++ d :: after }) where
  mono := strictMono_displaced _
  enumerations := rfl
  declaration j other hother := (getElem?_displaced before after d j).trans hother
  index name hname := by
    have hother : (d.name == name) = false := by simpa using fun h => hname h.symm
    simp only [index?, Forest.scope, List.findIdx?_append, List.findIdx?_cons, hother,
      Bool.false_eq_true, if_false]
    cases hk : before.findIdx? (·.name == name) with
    | some k =>
      obtain ⟨hlt, -⟩ := List.findIdx?_eq_some_iff_getElem.mp hk
      simp [displaced, hlt]
    | none =>
      cases after.findIdx? (·.name == name) with
      | none => rfl
      | some k =>
        have hplace : displaced before.length (k + before.length) = k + 1 + before.length := by
          rw [displaced, if_neg (by omega)]
          omega
        simp [hplace]
  free name hname := by
    subst hname
    rw [index?, List.findIdx?_eq_none_iff]
    intro other hother
    simpa using hfresh other hother

/-! ## Compiling one declaration after another -/

/-- What is compiled is a scope of all declarations, if each compiles behind those before it. -/
theorem exists_compileFrom {scope : Scope} {declarations : List Declaration}
    (hall : ∀ j d, declarations[j]? = some d → ∃ c, Scope.compileDeclaration
      { scope with declarations := scope.declarations ++ declarations.take j } d = .ok c)
    (cells : Array Cell) : ∃ cells', compileFrom scope cells declarations =
      .ok ({ scope with declarations := scope.declarations ++ declarations }, cells') := by
  induction declarations generalizing scope cells with
  | nil => exact ⟨cells, by rw [compileFrom, List.append_nil]⟩
  | cons d rest ih =>
    obtain ⟨c, hc⟩ := hall 0 d rfl
    rw [List.take_zero, List.append_nil] at hc
    have hrest : ∀ j other, rest[j]? = some other → ∃ c, Scope.compileDeclaration
        { scope.declare d with
          declarations := (scope.declare d).declarations ++ rest.take j } other = .ok c := by
      intro j other hother
      obtain ⟨c, hc⟩ := hall (j + 1) other hother
      exact ⟨c, by simpa [declare] using hc⟩
    obtain ⟨cells', hcells'⟩ := ih hrest (cells.push c)
    refine ⟨cells', ?_⟩
    rw [compileFrom, hc]
    simpa [declare] using hcells'

end Scope

end Stimulus
