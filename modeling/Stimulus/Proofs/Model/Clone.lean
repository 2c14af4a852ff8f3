import Stimulus.Proofs.Model.Calls
import Stimulus.Proofs.Scope.Copies

/-!
# Copies and their originals

A copy is not made of the cells of its variable: the variable's expression is built anew, in a scope
that has grown since. So a copy is a clone only as long as nothing that was declared in between
takes the whole path of a reference that reaches a variable by an access, as `a.copy` does.
-/
namespace Stimulus

namespace Declaration

/-- Whether a declaration has the whole path of a reference as its name, where the reference, in the
expression of another declaration, reaches a variable by an access in the path. -/
def Shadows (later d : Declaration) : Prop :=
  ∃ ref, .reference ref ∈ d.expr.walk ∧ ref.access? = none ∧ (splitAccess? ref.path).isSome ∧
    later.name = ref.path

/-- Declarations none of which shadows a reference of its own or of one before it. -/
structure Unshadowed (declarations : List Declaration) : Prop where
  later : declarations.Pairwise fun d later => ¬later.Shadows d
  own : ∀ d ∈ declarations, ¬d.Shadows d

theorem Unshadowed.take {declarations : List Declaration} (h : Unshadowed declarations) (i : Nat) :
    Unshadowed (declarations.take i) :=
  ⟨h.later.sublist (List.take_sublist i _), fun d hd => h.own d (List.mem_of_mem_take hd)⟩

theorem Unshadowed.not_shadows {declarations : List Declaration} (h : Unshadowed declarations)
    {i k : Nat} {d later : Declaration} (hd : declarations[i]? = some d)
    (hlater : declarations[k]? = some later) (hle : i ≤ k) : ¬later.Shadows d := by
  obtain ⟨hi, rfl⟩ := List.getElem?_eq_some_iff.mp hd
  obtain ⟨hk, rfl⟩ := List.getElem?_eq_some_iff.mp hlater
  by_cases heq : i = k
  · subst heq
    exact h.own _ (List.getElem_mem hi)
  · exact List.pairwise_iff_getElem.mp h.later i k hi hk (by omega)

end Declaration

namespace Scope

open Declaration

variable {scope : Scope} {cells : Array Cell} {i a : Nat}

/-- Where no reference is shadowed, none is overtaken. -/
theorem not_overtaken (hfree : Unshadowed scope.declarations) {d : Declaration}
    (hd : scope.declarations[a]? = some d) {ref : Identifier}
    (href : .reference ref ∈ d.expr.walk) :
    ¬scope.Overtaken a ref := by
  intro h
  obtain ⟨k, hle, hk⟩ := h.later
  have hname := name_of_index? hk
  obtain ⟨later, hlater, hpath⟩ := Option.map_eq_some_iff.mp hname
  exact hfree.not_shadows hd hlater hle ⟨ref, href, h.access, h.split, hpath⟩

/-- In a scope without shadowed references, the cells for a copy of a variable are the cells that
the variable itself has received. -/
theorem Compiled.bodyBelow_eq_cell (hc : scope.Compiled cells) {use : Use}
    (hnext : use.allowNext = true) (hi : i ≤ scope.declarations.length)
    (hfree : Unshadowed (scope.declarations.take i)) (ha : a < i) {original : Cell}
    (horiginal : cells[a]? = some original) {bound : Nat} (hbound : a < bound) :
    (scope.upTo i).bodyBelow use bound a = .ok original := by
  induction a using Nat.strongRecOn generalizing i use original bound with
  | ind a ih =>
    obtain ⟨d, hd, hbuild⟩ := hc.exists_build horiginal
    have hd' : (scope.upTo i).declarations[a]? = some d := by
      rw [declarations_upTo, List.getElem?_take_of_lt ha]
      exact hd
    rw [bodyBelow_eq hbound hd', ← hbuild]
    apply Cell.build_congr
    intro ref href
    obtain ⟨target, htarget⟩ := hc.resolves hd href
    -- The reference has the same target in the scope of the copy as in the scope of the original.
    have hsame : (scope.upTo i).resolveTarget use ref = .ok target := by
      rw [← upTo_upTo (Nat.le_of_lt ha)] at htarget
      obtain hkept | ⟨hovertaken, -⟩ := resolveTarget_of_upTo hnext htarget
      · exact hkept
      · exact absurd hovertaken (not_overtaken hfree hd' href)
    rw [bind_of_resolveTarget hsame, bind_of_resolveTarget htarget]
    cases target with
    | copy name j =>
      have hindex : (scope.upTo a).index? name = some j := resolveTarget_boundIn htarget
      have hj : j < a := (index?_eq_some_of_upTo hindex).2
      obtain ⟨inner, hinner, -⟩ := hc.cell j (by omega)
      have hfree' : Unshadowed (scope.declarations.take a) := by
        rw [← Nat.min_eq_left (Nat.le_of_lt ha), ← List.take_take]
        exact hfree.take a
      have hnow : (scope.upTo i).bodyBelow use a j = .ok inner :=
        ih j hj hnext hi hfree (by omega) hinner hj
      have hthen : (scope.upTo a).bodyBelow { subject? := some d.name }
          (scope.upTo a).declarations.length j = .ok inner :=
        ih j hj rfl (by omega) hfree' hj hinner (by simp; omega)
      rw [cellOf, cellOf, hnow, hthen]
    | constant | enumeration | read | next => rfl

end Scope

namespace Model

/-- A copy at any depth in the cells of a variable is a copy of a variable before it, and its cells
belong to that variable's expression. If nothing before the copying variable shadows a reference,
they are the cells that the copied variable was compiled to, with all their bindings. -/
theorem copy_eq_original {settings : Settings} {forest : Forest} {m : Model}
    (hm : compile settings forest = .ok m) {i : Nat} {c : Cell} (hcell : m.cells[i]? = some c)
    {ref : Identifier} {name : String} {body : Cell} {r : Report}
    (hcopy : .copy ref name body r ∈ c.walk) :
    ∃ a d, a < i ∧ forest.declarations[a]? = some d ∧ d.name = name ∧ body.expr = d.expr ∧
      (Declaration.Unshadowed (forest.declarations.take i) → m.cells[a]? = some body) := by
  obtain ⟨hcompiled, hdeclarations, -⟩ := compile_eq_ok hm
  rw [declarations] at hdeclarations
  rw [← hdeclarations]
  obtain ⟨d, hd, hbuild⟩ := hcompiled.exists_build hcell
  obtain ⟨hi, -⟩ := List.getElem?_eq_some_iff.mp hd
  obtain ⟨a, hindex, hbody⟩ := Scope.copy_of_mem_walk hbuild hcopy
  obtain ⟨hname, ha⟩ := Scope.index?_eq_some_of_upTo hindex
  obtain ⟨original, horiginal, hpath⟩ := Option.map_eq_some_iff.mp (Scope.name_of_index? hname)
  obtain ⟨-, copied, hcopied, hcells⟩ := Scope.bodyBelow_eq_ok hbody
  rw [Scope.declarations_upTo, List.getElem?_take_of_lt ha, horiginal] at hcopied
  cases hcopied
  refine ⟨a, original, ha, horiginal, hpath,
    Cell.expr_build Scope.tellsReference_bind hcells, fun hfree => ?_⟩
  obtain ⟨inner, hinner, -⟩ := hcompiled.cell a (by omega)
  rw [hcompiled.bodyBelow_eq_cell rfl (by omega) hfree ha hinner (Nat.lt_succ_self a)] at hbody
  cases hbody
  exact hinner

/-- A copy of a variable that copies another one by its path. -/
theorem copy_eq_original_nested :
    let forest : Forest := { declarations := [
      ⟨"a", .pattern [.literal 1, .literal 2], none⟩,
      ⟨"b", .reference { path := "a.copy" }, none⟩,
      ⟨"c", .reference { path := "b", access? := some .copy }, none⟩] }
    ∃ m body, compile {} forest = .ok m ∧
      m.cells[2]? = some (.copy { path := "b", access? := some .copy } "b" body {}) ∧
      m.cells[1]? = some body := by
  intro forest
  obtain ⟨m, body, hm, hcell⟩ : ∃ m body, compile {} forest = .ok m ∧
      m.cells[2]? = some (.copy { path := "b", access? := some .copy } "b" body {}) :=
    ⟨_, _, rfl, rfl⟩
  obtain ⟨a, d, ha, hd, hpath, -, hclone⟩ := copy_eq_original hm hcell (Cell.mem_walk_self _)
  have hfree : Declaration.Unshadowed (forest.declarations.take 2) := by
    constructor
    · simp [forest, Declaration.Shadows, Expr.walk, Expr.walkMembers]
    · simp [forest, Declaration.Shadows, Expr.walk, Expr.walkMembers]
  have ha' : a = 1 := by
    obtain rfl | rfl : a = 0 ∨ a = 1 := by omega
    · cases hd
      revert hpath
      decide
    · rfl
  rw [ha'] at hclone
  exact ⟨m, body, hm, hcell, hclone hfree⟩

/-- A copy that is not a clone: between the original and the copy, a variable is declared whose name
is the path by which the original copies another one. The copy reads that variable instead. -/
theorem copy_not_clone :
    let forest : Forest := { declarations := [
      ⟨"a", .pattern [.literal 1, .literal 2], none⟩,
      ⟨"b", .reference { path := "a.copy" }, none⟩,
      ⟨"a.copy", .literal 5, none⟩,
      ⟨"c", .reference { path := "b", access? := some .copy }, none⟩] }
    ∃ m original body, compile {} forest = .ok m ∧
      m.cells[1]? = some (.copy { path := "a.copy" } "a" original {}) ∧
      m.cells[3]? = some (.copy { path := "b", access? := some .copy } "b" body {}) ∧
      body = .leaf (.read { path := "a.copy" } "a.copy" 2) {} ∧
      m.advance.model.readings = [⟨1, false⟩, ⟨1, false⟩, ⟨5, true⟩, ⟨5, true⟩] := by
  intro forest
  exact ⟨_, _, _, rfl, rfl, rfl, rfl, by decide +kernel⟩

end Model

end Stimulus
