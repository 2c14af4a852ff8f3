import Stimulus.Proofs.Scope.Copies

/-!
# Building without a bound

To build an expression means to bind its references, and for every copy among them to build the
expression of the copied variable first. Here this recursion is a relation, with nothing in it that
stops the recursion: a result belongs to it only if the recursion comes to an end. In a compiled
scope it always does, since a copy in the expression of a variable is a copy of an earlier one. So
the bound that the cells of copies are built with is never met.
-/
namespace Stimulus.Scope

/-- What building an expression in a scope gives, if the recursion through its copies ends. -/
inductive Builds (scope : Scope) (use : Use) :
    Option Position → Expr → Except Error Cell → Prop
  | mk {position? : Option Position} {e : Expr} (body : Nat → Except Error Cell)
      (hbody : ∀ ref name j d, .reference ref ∈ e.walk →
        scope.resolveTarget use ref = .ok (.copy name j) → scope.declarations[j]? = some d →
        Builds scope use none d.expr (body j)) :
      Builds scope use position? e (Cell.build (scope.bind use body position?) e)

variable {scope : Scope} {use : Use} {position? : Option Position} {e : Expr}

/-- The cell of a reference depends on what can be copied only where it is a copy. -/
theorem bind_congr {body body' : Nat → Except Error Cell} {ref : Identifier}
    (h : ∀ name j, scope.resolveTarget use ref = .ok (.copy name j) → body j = body' j) :
    scope.bind use body position? ref = scope.bind use body' position? ref := by
  cases htarget : scope.resolveTarget use ref with
  | error cause => rw [bind_of_resolveTarget_error htarget, bind_of_resolveTarget_error htarget]
  | ok target =>
    rw [bind_of_resolveTarget htarget, bind_of_resolveTarget htarget]
    cases target with
    | copy name j => rw [cellOf, cellOf, h name j htarget]
    | constant | enumeration | read | next => rfl

/-- The place of a copied variable is one of the scope. -/
theorem exists_declaration_of_copy {ref : Identifier} {name : String} {j : Nat}
    (h : scope.resolveTarget use ref = .ok (.copy name j)) :
    ∃ d, scope.declarations[j]? = some d := by
  have hbound : scope.index? name = some j := resolveTarget_boundIn h
  exact ⟨_, List.getElem?_eq_getElem (index?_lt hbound)⟩

/-- Building gives one result. -/
theorem Builds.unique {result other : Except Error Cell} (h : scope.Builds use position? e result)
    (h' : scope.Builds use position? e other) : result = other := by
  induction h generalizing other with
  | mk body hbody ih =>
    cases h' with
    | mk body' hbody' =>
      apply Cell.build_congr
      intro ref href
      apply bind_congr
      intro name j hcopy
      obtain ⟨d, hd⟩ := exists_declaration_of_copy hcopy
      exact ih ref name j d href hcopy hd (hbody' ref name j d href hcopy hd)

variable {cells : Array Cell}

/-- Among the variables of a compiled scope, the recursion through copies goes down. -/
theorem Compiled.builds_bodyBelow (hc : scope.Compiled cells) (hnext : use.allowNext = true)
    {j : Nat} {d : Declaration} (hd : scope.declarations[j]? = some d) {bound : Nat}
    (hj : j < bound) :
    scope.Builds use none d.expr (scope.bodyBelow use bound j) := by
  induction j using Nat.strongRecOn generalizing d bound with
  | ind j ih =>
    rw [bodyBelow_eq hj hd]
    refine .mk (scope.bodyBelow use j) fun ref name k d' href hcopy hd' => ?_
    have hk : k < j := (hc.copy_lt hd href hnext hcopy).1
    exact ih k hk hd' hk

/-- In a compiled scope the recursion ends for every expression, with the cells that are built
under the bound. -/
theorem Compiled.builds_iff (hc : scope.Compiled cells) (hnext : use.allowNext = true)
    {result : Except Error Cell} :
    scope.Builds use position? e result ↔ scope.buildCell use position? e = result := by
  have hbuilds : scope.Builds use position? e (scope.buildCell use position? e) := by
    refine .mk (scope.bodyBelow use scope.declarations.length) fun ref name j d href hcopy hd => ?_
    obtain ⟨hj, -⟩ := List.getElem?_eq_some_iff.mp hd
    exact hc.builds_bodyBelow hnext hd hj
  constructor
  · exact hbuilds.unique
  · rintro rfl
    exact hbuilds

/-- What compiling a declaration gives, if building its cells ends. -/
inductive CompilesDeclaration (scope : Scope) (d : Declaration) : Except Error Cell → Prop
  | misnamed {cause : ConstructionCause} (hname : scope.nameCause? d = some cause) :
      CompilesDeclaration scope d (.error (.construction
        { cause, variableName? := some d.name, position? := d.position? }))
  | refused {error : Located ConstructionCause} (hname : scope.nameCause? d = none)
      (hcheck : d.expr.check (some d.name) d.position? = .error error) :
      CompilesDeclaration scope d (.error (.ofConstruction error))
  | built {result : Except Error Cell} (hname : scope.nameCause? d = none)
      (hcheck : d.expr.check (some d.name) d.position? = .ok ())
      (hbuilds : scope.Builds { subject? := some d.name } d.position? d.expr result) :
      CompilesDeclaration scope d result

/-- What compiling declarations behind others gives, if building the cells of each ends. -/
inductive CompilesFrom : Scope → Array Cell → List Declaration →
    Except Error (Scope × Array Cell) → Prop
  | nil {scope : Scope} {cells : Array Cell} : CompilesFrom scope cells [] (.ok (scope, cells))
  | failed {scope : Scope} {cells : Array Cell} {d : Declaration} {rest : List Declaration}
      {error : Error} (hd : scope.CompilesDeclaration d (.error error)) :
      CompilesFrom scope cells (d :: rest) (.error error)
  | cons {scope : Scope} {cells : Array Cell} {d : Declaration} {rest : List Declaration}
      {cell : Cell} {result : Except Error (Scope × Array Cell)}
      (hd : scope.CompilesDeclaration d (.ok cell))
      (hrest : CompilesFrom (scope.declare d) (cells.push cell) rest result) :
      CompilesFrom scope cells (d :: rest) result

theorem Compiled.compilesDeclaration_iff (hc : scope.Compiled cells) {d : Declaration}
    {result : Except Error Cell} :
    scope.CompilesDeclaration d result ↔ scope.compileDeclaration d = result := by
  unfold compileDeclaration
  constructor
  · intro h
    cases h with
    | misnamed hname => rw [hname]; rfl
    | refused hname hcheck => rw [hname, hcheck]; rfl
    | built hname hcheck hbuilds =>
      rw [hname, hcheck]
      exact (hc.builds_iff rfl).mp hbuilds
  · rintro rfl
    cases hname : scope.nameCause? d with
    | some cause => exact .misnamed hname
    | none =>
      cases hcheck : d.expr.check (some d.name) d.position? with
      | error error => exact .refused hname hcheck
      | ok _ => exact .built hname hcheck ((hc.builds_iff rfl).mpr rfl)

theorem Compiled.compilesFrom_iff (hc : scope.Compiled cells) {declarations : List Declaration}
    {result : Except Error (Scope × Array Cell)} :
    CompilesFrom scope cells declarations result ↔
      compileFrom scope cells declarations = result := by
  induction declarations generalizing scope cells with
  | nil =>
    constructor
    · rintro ⟨⟩
      rfl
    · rintro rfl
      exact .nil
  | cons d rest ih =>
    constructor
    · intro h
      cases h with
      | failed hd => rw [compileFrom, hc.compilesDeclaration_iff.mp hd]
      | cons hd hrest =>
        have hcell := hc.compilesDeclaration_iff.mp hd
        rw [compileFrom, hcell]
        exact (ih (hc.declare hcell)).mp hrest
    · rintro rfl
      cases hcell : scope.compileDeclaration d with
      | error error =>
        rw [compileFrom, hcell]
        exact .failed (hc.compilesDeclaration_iff.mpr hcell)
      | ok cell =>
        refine .cons (hc.compilesDeclaration_iff.mpr hcell) ((ih (hc.declare hcell)).mpr ?_)
        rw [compileFrom, hcell]

end Stimulus.Scope
