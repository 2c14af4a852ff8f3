import Stimulus.Proofs.Scope.Growth

/-!
# Copies

The cells below a copy are those that its variable's expression is built to in the same scope. This
holds for copies inside copies too.
-/
namespace Stimulus.Scope

variable {scope : Scope} {use : Use} {position? : Option Position} {e : Expr}

theorem tellsReference_bind {body : Nat → Except Error Cell} :
    Cell.TellsReference (scope.bind use body position?) := by
  intro ref c h
  obtain ⟨target, -, hcell⟩ := resolveTarget_of_bind h
  cases target with
  | copy name j =>
    obtain ⟨copied, -, rfl⟩ := cellOf_copy_eq_ok hcell
    rfl
  | constant | enumeration | read | next =>
    cases hcell
    rfl

theorem bodyBelow_eq {bound j : Nat} (hj : j < bound) {d : Declaration}
    (hd : scope.declarations[j]? = some d) :
    scope.bodyBelow use bound j =
      Cell.build (scope.bind use (scope.bodyBelow use j) none) d.expr := by
  induction bound with
  | zero => omega
  | succ bound ih =>
    by_cases heq : j = bound
    · subst heq
      rw [bodyBelow, if_pos rfl, hd]
    · rw [bodyBelow, if_neg heq]
      exact ih (by omega)

/-- What a copy holds was built of the expression of a variable below the bound. -/
theorem bodyBelow_eq_ok {bound j : Nat} {c : Cell} (h : scope.bodyBelow use bound j = .ok c) :
    j < bound ∧ ∃ d, scope.declarations[j]? = some d ∧
      Cell.build (scope.bind use (scope.bodyBelow use j) none) d.expr = .ok c := by
  induction bound with
  | zero => cases h
  | succ bound ih =>
    by_cases heq : j = bound
    · subst heq
      rw [bodyBelow, if_pos rfl] at h
      cases hd : scope.declarations[j]? with
      | none =>
        rw [hd] at h
        cases h
      | some d =>
        rw [hd] at h
        exact ⟨Nat.lt_succ_self j, d, rfl, h⟩
    · rw [bodyBelow, if_neg heq] at h
      obtain ⟨hj, hbuilt⟩ := ih h
      exact ⟨by omega, hbuilt⟩

/-- Every node in the cells of an expression belongs to a node of the expression or of the
expression of a variable. Where it belongs to a reference, it is the cell that the reference is
bound to. -/
theorem source_of_mem_walk {bound : Nat} {c : Cell}
    (h : Cell.build (scope.bind use (scope.bodyBelow use bound) position?) e = .ok c) {node : Cell}
    (hnode : node ∈ c.walk) :
    (node.expr ∈ e.walk ∨ ∃ d ∈ scope.declarations, node.expr ∈ d.expr.walk) ∧
      ∀ ref, node.expr = .reference ref →
        ∃ target bound', scope.resolveTarget use ref = .ok target ∧
        cellOf (scope.bodyBelow use bound') ref target = .ok node := by
  induction bound using Nat.strongRecOn generalizing e position? c with
  | ind bound ih =>
    obtain ⟨ref, cell, href, hcell, hmem⟩ | ⟨hexpr, hproper⟩ :=
      Cell.mem_walk_of_build tellsReference_bind h hnode
    · have htells := tellsReference_bind ref cell hcell
      obtain ⟨target, htarget, hcell⟩ := resolveTarget_of_bind hcell
      rw [Cell.walk_eq, List.mem_cons, List.mem_flatMap] at hmem
      obtain rfl | ⟨child, hchild, hmem⟩ := hmem
      · rw [htells]
        refine ⟨.inl href, ?_⟩
        rintro _ ⟨⟩
        exact ⟨target, bound, htarget, hcell⟩
      · -- Only the cell of a copy has cells below it.
        cases target with
        | copy name j =>
          obtain ⟨copied, hbody, rfl⟩ := cellOf_copy_eq_ok hcell
          rw [Cell.children, List.mem_singleton] at hchild
          subst hchild
          obtain ⟨hj, d, hd, hbuilt⟩ := bodyBelow_eq_ok hbody
          obtain ⟨hsource, hreference⟩ := ih j hj hbuilt hmem
          refine ⟨.inr ?_, hreference⟩
          obtain hd' | hother := hsource
          · exact ⟨d, List.mem_of_getElem? hd, hd'⟩
          · exact hother
        | constant | enumeration | read | next =>
          cases hcell
          cases hchild
    · exact ⟨.inl hexpr, fun ref href => absurd href (hproper ref)⟩

/-- A copy at any depth is of the variable that it names, and it holds what the expression of that
variable is built to. -/
theorem copy_of_mem_walk {bound : Nat} {c : Cell}
    (h : Cell.build (scope.bind use (scope.bodyBelow use bound) position?) e = .ok c)
    {ref : Identifier} {name : String} {body : Cell} {r : Report}
    (hcopy : .copy ref name body r ∈ c.walk) :
    ∃ j, scope.index? name = some j ∧ scope.bodyBelow use (j + 1) j = .ok body := by
  obtain ⟨-, hreference⟩ := source_of_mem_walk h hcopy
  obtain ⟨target, bound', htarget, hcell⟩ := hreference ref rfl
  have hbound := resolveTarget_boundIn htarget
  cases target with
  | copy name' j =>
    obtain ⟨copied, hbody, heq⟩ := cellOf_copy_eq_ok hcell
    cases heq
    obtain ⟨-, d, hd, hbuilt⟩ := bodyBelow_eq_ok hbody
    refine ⟨j, hbound, ?_⟩
    rw [bodyBelow_eq (Nat.lt_succ_self j) hd, hbuilt]
  | constant | enumeration | read | next => cases hcell

/-- What is built for a copy of a variable steps only variables that were declared before the copied
one: a reference that has been overtaken since steps none. -/
theorem Compiled.next_lt {cells : Array Cell} (hc : scope.Compiled cells)
    (hnext : use.allowNext = true) {i a bound : Nat} {body : Cell}
    (h : (scope.upTo i).bodyBelow use bound a = .ok body) {ref : Identifier} {name : String}
    {k : Nat} {r : Report} (hleaf : .leaf (.next ref name k) r ∈ body.walk) : k < a := by
  induction a using Nat.strongRecOn generalizing bound body with
  | ind a ih =>
    obtain ⟨-, d, hd, hbuilt⟩ := bodyBelow_eq_ok h
    obtain ⟨ref', cell, href, hcell, hmem⟩ | ⟨-, hproper⟩ :=
      Cell.mem_walk_of_build tellsReference_bind hbuilt hleaf
    · obtain ⟨target, htarget, hcell⟩ := resolveTarget_of_bind hcell
      rw [declarations_upTo, List.getElem?_take, Option.ite_none_right_eq_some] at hd
      obtain ⟨ha, hd⟩ := hd
      have hbound := hc.boundIn_again (upTo_upTo (Nat.le_of_lt ha)) hd href hnext htarget
      cases target with
      | next name' j =>
        cases hcell
        simp only [Cell.walk, List.mem_singleton, Cell.leaf.injEq, Leaf.next.injEq] at hmem
        obtain ⟨⟨-, -, rfl⟩, -⟩ := hmem
        obtain ⟨-, hindex⟩ | ⟨_, hread⟩ := hbound
        · exact (index?_eq_some_of_upTo hindex).2
        · cases hread
      | copy name' j =>
        obtain ⟨copied, hcopied, rfl⟩ := cellOf_copy_eq_ok hcell
        simp only [Cell.walk, List.mem_cons, reduceCtorEq, false_or] at hmem
        obtain hindex | ⟨_, hread⟩ := hbound
        · have hj : j < a := (index?_eq_some_of_upTo hindex).2
          exact Nat.lt_trans (ih j hj hcopied hmem) hj
        · cases hread
      | constant | enumeration | read =>
        cases hcell
        simp [Cell.walk] at hmem
    · exact absurd rfl (hproper ref)

end Stimulus.Scope
