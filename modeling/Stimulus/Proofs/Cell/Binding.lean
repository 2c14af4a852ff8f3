import Stimulus.Proofs.Cell.Build

/-!
# What references are bound to

A reference to a variable is bound to the variable that has its name in the scope, and to a step of
it only where the use allows that. This holds for the references inside copies too, since they are
bound in the same scope and for the same use.
-/
namespace Stimulus

/-- A target that a scope gives: its variable or its enumeration is the one that it names. -/
def Target.BoundIn (scope : Scope) (use : Scope.Use) : Target → Prop
  | .constant _ => True
  | .enumeration name values => scope.enumValues? name = some values
  | .read name index | .copy name index => scope.index? name = some index
  | .next name index => use.allowNext = true ∧ scope.index? name = some index

/-- A leaf that a scope gives: its variable or its enumeration is the one that it names. -/
def Leaf.BoundIn (scope : Scope) (use : Scope.Use) : Leaf → Prop
  | .literal _ | .item _ _ | .constant _ _ => True
  | .enumeration _ name values => scope.enumValues? name = some values
  | .read _ name index => scope.index? name = some index
  | .next _ name index => use.allowNext = true ∧ scope.index? name = some index

namespace Scope

theorem index?_lt {scope : Scope} {name : String} {index : Nat}
    (h : scope.index? name = some index) : index < scope.declarations.length := by
  obtain ⟨hlt, -⟩ := List.findIdx?_eq_some_iff_getElem.mp h
  exact hlt

theorem resolveVariable_boundIn {scope : Scope} {use : Use} {path : String}
    {access? : Option Access} {target : Target}
    (h : scope.resolveVariable use path access? = .ok target) : target.BoundIn scope use := by
  unfold resolveVariable at h
  split at h
  · cases h
  · rename_i index hindex
    split at h
    · cases h
      exact hindex
    · split at h
      · rename_i hallow
        cases h
        exact ⟨hallow, hindex⟩
      · cases h
    · cases h
      exact hindex
    · cases h
      exact hindex

theorem resolvePath_boundIn {scope : Scope} {use : Use} {path : String} {target : Target}
    (h : scope.resolvePath use path = .ok target) : target.BoundIn scope use := by
  unfold resolvePath at h
  split at h
  · cases h
    trivial
  · split at h
    · cases h
      trivial
    · cases h
    · split at h
      · rename_i values hvalues
        cases h
        exact hvalues
      · split at h <;> exact resolveVariable_boundIn h

theorem resolveTarget_boundIn {scope : Scope} {use : Use} {ref : Identifier} {target : Target}
    (h : scope.resolveTarget use ref = .ok target) : target.BoundIn scope use := by
  unfold resolveTarget at h
  split at h
  · exact resolvePath_boundIn h
  · exact resolveVariable_boundIn h

variable {scope : Scope} {use : Use} {ref : Identifier} {target : Target} {motive : Cell → Prop}

/-- The position of a reference takes no part in what it is bound to. -/
theorem resolveTarget_placedAt (scope : Scope) (use : Use) (ref : Identifier)
    (position? : Option Position) :
    scope.resolveTarget use (ref.placedAt position?) = scope.resolveTarget use ref := rfl

/-- A reference that has a target gets the cell for it. -/
theorem bind_of_resolveTarget {body : Nat → Except Error Cell} {position? : Option Position}
    (h : scope.resolveTarget use ref = .ok target) :
    scope.bind use body position? ref = cellOf body ref target := by
  rw [bind, resolve, resolveTarget_placedAt, h]
  rfl

/-- A reference that has no target gets no cell, whatever can be copied. -/
theorem bind_of_resolveTarget_error {body : Nat → Except Error Cell}
    {position? : Option Position} {cause : ConstructionCause}
    (h : scope.resolveTarget use ref = .error cause) :
    scope.bind use body position? ref = .error (.construction
      { cause, variableName? := use.subject?, position? := ref.position?.or position? }) := by
  rw [bind, resolve, resolveTarget_placedAt, h]
  rfl

/-- A reference gets a cell only if it has a target. -/
theorem resolveTarget_of_bind {body : Nat → Except Error Cell} {position? : Option Position}
    {c : Cell} (h : scope.bind use body position? ref = .ok c) :
    ∃ target, scope.resolveTarget use ref = .ok target ∧ cellOf body ref target = .ok c := by
  cases htarget : scope.resolveTarget use ref with
  | error cause =>
    rw [bind_of_resolveTarget_error htarget] at h
    cases h
  | ok target =>
    rw [bind_of_resolveTarget htarget] at h
    exact ⟨target, rfl, h⟩

/-- The cell of a copy is one over the cells that are copied. -/
theorem cellOf_copy_eq_ok {body : Nat → Except Error Cell} {ref : Identifier} {name : String}
    {index : Nat} {c : Cell} (h : cellOf body ref (.copy name index) = .ok c) :
    ∃ copied, body index = .ok copied ∧ c = .copy ref name copied {} := by
  rw [cellOf] at h
  cases hcopied : body index with
  | error e => simp [hcopied, Except.map] at h
  | ok copied =>
    rw [hcopied] at h
    exact ⟨copied, rfl, (Except.ok.inj h).symm⟩

theorem cellOf_keeps (hm : Cell.Hereditary (Leaf.BoundIn scope use) motive)
    {body : Nat → Except Error Cell} (hbody : ∀ index c, body index = .ok c → motive c)
    {ref : Identifier} {target : Target} (htarget : target.BoundIn scope use) {c : Cell}
    (h : cellOf body ref target = .ok c) : motive c := by
  cases target with
  | constant value =>
    cases h
    exact hm.leaf _ trivial
  | enumeration name values | read name index | next name index =>
    cases h
    exact hm.leaf _ htarget
  | copy name index =>
    obtain ⟨copied, hcopied, rfl⟩ := cellOf_copy_eq_ok h
    exact hm.copy ref name copied (hbody index copied hcopied)

theorem bind_keeps (hm : Cell.Hereditary (Leaf.BoundIn scope use) motive)
    {body : Nat → Except Error Cell} (hbody : ∀ index c, body index = .ok c → motive c)
    {position? : Option Position} {ref : Identifier} {c : Cell}
    (h : scope.bind use body position? ref = .ok c) : motive c := by
  obtain ⟨target, htarget, hcell⟩ := resolveTarget_of_bind h
  exact cellOf_keeps hm hbody (resolveTarget_boundIn htarget) hcell

theorem bodyBelow_keeps (hm : Cell.Hereditary (Leaf.BoundIn scope use) motive) (bound : Nat) :
    ∀ index c, scope.bodyBelow use bound index = .ok c → motive c := by
  induction bound with
  | zero =>
    intro index c h
    cases h
  | succ bound ih =>
    intro index c h
    unfold bodyBelow at h
    split at h
    · split at h
      · exact hm.build (fun _ => trivial) (fun _ _ => trivial) (fun _ _ => bind_keeps hm ih) h
      · cases h
    · exact ih index c h

/-- What passes from the parts of a fresh cell to the cell, and holds of leaves that are bound in
the scope, holds of all cells that the scope builds. -/
theorem buildCell_keeps (hm : Cell.Hereditary (Leaf.BoundIn scope use) motive)
    {position? : Option Position} {e : Expr} {c : Cell}
    (h : scope.buildCell use position? e = .ok c) : motive c :=
  hm.build (fun _ => trivial) (fun _ _ => trivial)
    (fun _ _ => bind_keeps hm (bodyBelow_keeps hm scope.declarations.length)) h

theorem reset_buildCell {position? : Option Position} {e : Expr} {c : Cell}
    (h : scope.buildCell use position? e = .ok c) : c.reset = c :=
  buildCell_keeps (Cell.hereditary_reset _) h

theorem boundIn_of_buildCell {position? : Option Position} {e : Expr} {c : Cell}
    (h : scope.buildCell use position? e = .ok c) : ∀ l ∈ c.leaves, l.BoundIn scope use :=
  buildCell_keeps (Cell.hereditary_leaves _) h

end Scope

end Stimulus
