import Stimulus.Proofs.Cell.References
import Stimulus.Proofs.Model.Compiled

/-!
# Names in a growing scope

Variables are only added to a scope. A reference that was resolved before keeps its target, with one
exception: where it reached a variable by a name and an access, as in `a.next`, a variable that is
declared later under that whole path takes its place.
-/
namespace Stimulus.Scope

variable {scope : Scope} {use use' : Use} {i : Nat} {ref : Identifier} {target : Target}

@[simp] theorem upTo_upTo {j : Nat} (h : i ≤ j) : (scope.upTo j).upTo i = scope.upTo i := by
  simp only [upTo, List.take_take, Nat.min_eq_left h]

/-- The place of a variable does not change when others are added. -/
theorem index?_upTo (scope : Scope) (i : Nat) (name : String) :
    (scope.upTo i).index? name = (scope.index? name).filter (· < i) := by
  rw [index?, declarations_upTo, List.findIdx?_take, index?]
  cases scope.declarations.findIdx? (·.name == name) with
  | none => rfl
  | some k => simp [Option.guard, Option.filter]

theorem index?_eq_some_of_upTo {name : String} {k : Nat} (h : (scope.upTo i).index? name = some k) :
    scope.index? name = some k ∧ k < i := by
  rw [index?_upTo, Option.filter_eq_some_iff] at h
  simpa using h

/-- A variable with a name is at the place of that name. -/
theorem name_of_index? {name : String} {k : Nat} (h : scope.index? name = some k) :
    (scope.declarations[k]?).map (·.name) = some name := by
  obtain ⟨hlt, hname, -⟩ := List.findIdx?_eq_some_iff_getElem.mp h
  rw [List.getElem?_eq_getElem hlt, Option.map_some, eq_of_beq hname]

theorem resolveVariable_of_upTo (hnext : use'.allowNext = true) {path : String}
    {access? : Option Access}
    (h : (scope.upTo i).resolveVariable use path access? = .ok target) :
    scope.resolveVariable use' path access? = .ok target := by
  unfold resolveVariable at h ⊢
  split at h
  · cases h
  · rename_i k hk
    rw [(index?_eq_some_of_upTo hk).1]
    split at h
    · exact h
    · split at h
      · simpa only [hnext, if_true] using h
      · cases h
    · exact h
    · exact h

/-- A reference to which a scope offers a variable with its whole path as name, where it once
reached another variable by an access. -/
structure Overtaken (scope : Scope) (i : Nat) (ref : Identifier) : Prop where
  access : ref.access? = none
  split : (splitAccess? ref.path).isSome
  later : ∃ k, i ≤ k ∧ scope.index? ref.path = some k

theorem resolvePath_of_upTo (hnext : use'.allowNext = true) {path : String}
    (h : (scope.upTo i).resolvePath use path = .ok target) :
    scope.resolvePath use' path = .ok target ∨
      (splitAccess? path).isSome ∧ ∃ k, i ≤ k ∧ scope.index? path = some k ∧
        scope.resolvePath use' path = .ok (.read path k) := by
  have hitem : (scope.upTo i).itemValue? path = scope.itemValue? path := rfl
  have hbare : (scope.upTo i).bareItems path = scope.bareItems path := rfl
  have henum : (scope.upTo i).enumValues? path = scope.enumValues? path := rfl
  unfold resolvePath at h ⊢
  rw [hitem, hbare, henum] at h
  generalize scope.itemValue? path = item?, scope.bareItems path = items,
    scope.enumValues? path = values? at h ⊢
  -- Items and enumerations stay the same, and they come before the variables.
  match item?, items, values? with
  | some value, _, _ | none, [_], _ | none, _ :: _ :: _, _ | none, [], some values => exact .inl h
  | none, [], none =>
    simp only at h ⊢
    cases hk : scope.index? path with
    | none =>
      rw [index?_upTo, hk, Option.filter_none] at h
      cases hsplit : splitAccess? path with
      | none | some split =>
        rw [hsplit] at h
        exact .inl (resolveVariable_of_upTo hnext h)
    | some k =>
      by_cases hlt : k < i
      · rw [index?_upTo, hk, Option.filter_some, if_pos (by simpa using hlt)] at h
        exact .inl (resolveVariable_of_upTo hnext h)
      · have hmissing : (scope.upTo i).index? path = none := by
          rw [index?_upTo, hk, Option.filter_some, if_neg (by simpa using hlt)]
        cases hsplit : splitAccess? path with
        | none =>
          rw [hmissing, hsplit] at h
          simp only [resolveVariable, hmissing] at h
          cases h
        | some split =>
          refine .inr ⟨rfl, k, by omega, rfl, ?_⟩
          simp only [resolveVariable, hk]

/-- A reference keeps the target that it had before other variables were added, unless it is
overtaken. Then it reads the variable that has overtaken it. -/
theorem resolveTarget_of_upTo (hnext : use'.allowNext = true)
    (h : (scope.upTo i).resolveTarget use ref = .ok target) :
    scope.resolveTarget use' ref = .ok target ∨
      (scope.Overtaken i ref ∧ ∃ k, scope.resolveTarget use' ref = .ok (.read ref.path k)) := by
  unfold resolveTarget at h ⊢
  cases haccess : ref.access? with
  | some access =>
    rw [haccess] at h
    exact .inl (resolveVariable_of_upTo hnext h)
  | none =>
    rw [haccess] at h
    obtain hkept | ⟨hsplit, k, hle, hk, hread⟩ := resolvePath_of_upTo hnext h
    · exact .inl hkept
    · exact .inr ⟨⟨haccess, hsplit, k, hle, hk⟩, k, hread⟩

variable {cells : Array Cell} {d : Declaration}

/-- Every reference in the expression of a compiled variable could be bound in the scope before
it. -/
theorem Compiled.resolves (hc : scope.Compiled cells) (hd : scope.declarations[i]? = some d)
    (href : .reference ref ∈ d.expr.walk) :
    ∃ target, (scope.upTo i).resolveTarget { subject? := some d.name } ref = .ok target := by
  obtain ⟨hi, rfl⟩ := List.getElem?_eq_some_iff.mp hd
  obtain ⟨c, -, hbuilt⟩ := hc.cell i hi
  obtain ⟨-, -, hbuild⟩ := compileDeclaration_eq_ok hbuilt
  obtain ⟨cell, hbound⟩ := Cell.exists_bound_of_build hbuild href
  obtain ⟨target, htarget, -⟩ := resolveTarget_of_bind hbound
  exact ⟨target, htarget⟩

/-- Wherever a reference of a compiled variable is bound again, with more variables behind, it has
the target that it had, or it has been overtaken and reads a variable. -/
theorem Compiled.boundIn_again (hc : scope.Compiled cells) {scope' : Scope}
    (hgrown : scope'.upTo i = scope.upTo i) (hd : scope.declarations[i]? = some d)
    (href : .reference ref ∈ d.expr.walk) (hnext : use.allowNext = true)
    (h : scope'.resolveTarget use ref = .ok target) :
    target.BoundIn (scope.upTo i) { subject? := some d.name } ∨ ∃ k, target = .read ref.path k := by
  obtain ⟨original, horiginal⟩ := hc.resolves hd href
  have hbound := resolveTarget_boundIn horiginal
  rw [← hgrown] at horiginal
  obtain hkept | ⟨-, k, hread⟩ := resolveTarget_of_upTo hnext horiginal
  · rw [h] at hkept
    cases hkept
    exact .inl hbound
  · rw [h] at hread
    cases hread
    exact .inr ⟨k, rfl⟩

/-- Wherever an expression of a compiled variable is bound again, its copies are of variables that
were declared before it. -/
theorem Compiled.copy_lt (hc : scope.Compiled cells) (hd : scope.declarations[i]? = some d)
    (href : .reference ref ∈ d.expr.walk) (hnext : use.allowNext = true) {name : String} {j : Nat}
    (h : scope.resolveTarget use ref = .ok (.copy name j)) :
    j < i ∧ (scope.upTo i).index? name = some j := by
  obtain hbound | ⟨_, hread⟩ := hc.boundIn_again rfl hd href hnext h
  · exact ⟨(index?_eq_some_of_upTo hbound).2, hbound⟩
  · cases hread

end Stimulus.Scope
