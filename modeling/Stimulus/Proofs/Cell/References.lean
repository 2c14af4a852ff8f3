import Stimulus.Proofs.Cell.Build

/-!
# The references of an expression

Building an expression asks for the cells of its references and of no others, and it needs all of
them. Every node of the cell belongs to a node of the expression or to the cell of a reference.
-/
namespace Stimulus.Cell

open Stimulus.Sampling

variable {bind bind' : Identifier → Except Error Cell}

theorem buildMembers_congr {members : List Expr}
    (h : ∀ e ∈ members, build bind e = build bind' e) :
    buildMembers bind members = buildMembers bind' members := by
  induction members with
  | nil => rfl
  | cons e rest ih =>
    rw [List.forall_mem_cons] at h
    simp only [buildMembers, h.1, ih h.2]

/-- What is built depends on the cells of the expression's references only. -/
theorem build_congr {e : Expr} (h : ∀ ref, .reference ref ∈ e.walk → bind ref = bind' ref) :
    build bind e = build bind' e := by
  induction e using Expr.induct_members with
  | hexpr e ih =>
    have hmembers : ∀ member ∈ e.members, build bind member = build bind' member := by
      intro member hmember
      exact ih member hmember fun ref href => h ref (Expr.mem_walk_of_member hmember href)
    cases e with
    | literal | item => rfl
    | reference ref => exact h ref (Expr.mem_walk_self _)
    | range | sequence | unary | binary =>
      simp only [Expr.members, List.forall_mem_cons] at hmembers
      simp only [build, hmembers]
    | pattern | sample | pool =>
      have hcells := buildMembers_congr hmembers
      simp only [Expr.members] at hcells
      simp only [build, hcells]
    | weightedSample | weightedPool =>
      have hcells := buildMembers_congr hmembers
      simp only [Expr.members] at hcells
      simp only [build, buildWeighted_eq, hcells]

/-- An expression is built only if the cell of every reference in it is. -/
theorem exists_bound_of_build {e : Expr} {c : Cell} (h : build bind e = .ok c) {ref : Identifier}
    (href : .reference ref ∈ e.walk) : ∃ cell, bind ref = .ok cell := by
  induction e using Expr.induct_members generalizing c with
  | hexpr e ih =>
    rw [Expr.walk_eq, List.mem_cons, List.mem_flatMap] at href
    obtain rfl | ⟨member, hmember, href⟩ := href
    · exact ⟨c, h⟩
    · obtain ⟨ref', rfl, -⟩ | ⟨-, hcells⟩ := build_eq_ok h
      · cases hmember
      · obtain ⟨child, -, hchild⟩ := exists_left_of_forall₂ hcells.flip member hmember
        exact ih member hmember hchild href

/-- The cells of references that tell which reference they belong to. -/
def TellsReference (bind : Identifier → Except Error Cell) : Prop :=
  ∀ ref c, bind ref = .ok c → c.expr = .reference ref

theorem zip_weights_members (members : List (Int × Expr)) :
    (Expr.weights members).zip (members.map Prod.snd) = members := by
  rw [Expr.weights, List.zip_map', List.map_id'']
  exact fun _ => rfl

theorem expr_choose {e : Expr} {chooser : Chooser} (h : e.Chooses chooser) :
    chooser.expr e.members = e := by
  cases h with
  | pattern | sample | pool => rfl
  | weightedSample members htable =>
    obtain ⟨-, -, rfl⟩ := WeightTable.ofWeights_eq_ok htable
    rw [Chooser.expr, Expr.members, zip_weights_members]
  | weightedPool members hpool =>
    obtain ⟨-, -, -, rfl⟩ := WeightedPool.ofWeights_eq_ok hpool
    rw [Chooser.expr, WeightedPool.full, Expr.members, zip_weights_members]

/-- The outermost node of a cell belongs to the expression if its children belong to the members. -/
theorem StartsAs.expr_eq {e : Expr} {c : Cell} (h : StartsAs e c)
    (hchildren : c.children.map expr = e.members) : c.expr = e := by
  cases h with
  | literal | item => rfl
  | choice members hchooser =>
    rw [children] at hchildren
    rw [expr, memberExprs_eq_map, hchildren, expr_choose hchooser]
  | _ => simp_all [children, Expr.members, expr]

/-- A cell belongs to the expression that it was built of. -/
theorem expr_build (hbind : TellsReference bind) {e : Expr} {c : Cell}
    (h : build bind e = .ok c) : c.expr = e := by
  induction e using Expr.induct_members generalizing c with
  | hexpr e ih =>
    obtain ⟨ref, rfl, hc⟩ | ⟨hstart, hcells⟩ := build_eq_ok h
    · exact hbind ref c hc
    · have hmembers : ∀ member ∈ e.members, ∀ c, build bind member = .ok c → c.expr = member :=
        fun member hmember c => ih member hmember
      have hall := (List.forall₂_and_left _ _).mpr ⟨hmembers, hcells⟩
      have hexprs : List.Forall₂ (· = ·) e.members (c.children.map expr) :=
        List.forall₂_map_right_iff.mpr (hall.imp fun member child h => (h.1 child h.2).symm)
      rw [List.forall₂_eq_eq_eq] at hexprs
      exact hstart.expr_eq hexprs.symm

/-- Every node of a built cell stands in the cell of a reference, or it belongs to a node of the
expression that is no reference. -/
theorem mem_walk_of_build (hbind : TellsReference bind) {e : Expr} {c : Cell}
    (h : build bind e = .ok c) {node : Cell} (hnode : node ∈ c.walk) :
    (∃ ref cell, .reference ref ∈ e.walk ∧ bind ref = .ok cell ∧ node ∈ cell.walk) ∨
      (node.expr ∈ e.walk ∧ ∀ ref, node.expr ≠ .reference ref) := by
  induction e using Expr.induct_members generalizing c with
  | hexpr e ih =>
    obtain ⟨ref, rfl, hc⟩ | ⟨hstart, hcells⟩ := build_eq_ok h
    · exact .inl ⟨ref, c, Expr.mem_walk_self _, hc, hnode⟩
    · rw [walk_eq, List.mem_cons, List.mem_flatMap] at hnode
      obtain rfl | ⟨child, hchild, hnode⟩ := hnode
      · rw [expr_build hbind h]
        refine .inr ⟨Expr.mem_walk_self e, ?_⟩
        rintro ref rfl
        cases hstart with
        | choice members hchooser => cases hchooser
      · obtain ⟨member, hmember, hbuilt⟩ := exists_left_of_forall₂ hcells child hchild
        obtain ⟨ref, cell, href, hcell⟩ | ⟨hexpr, hproper⟩ := ih member hmember hbuilt hnode
        · exact .inl ⟨ref, cell, Expr.mem_walk_of_member hmember href, hcell⟩
        · exact .inr ⟨Expr.mem_walk_of_member hmember hexpr, hproper⟩

end Stimulus.Cell
