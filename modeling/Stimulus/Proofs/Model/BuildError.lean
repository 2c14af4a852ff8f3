import Stimulus.Proofs.Document.Integers
import Stimulus.Proofs.Model.Acceptance
import Stimulus.Proofs.Model.Replay

/-!
# Errors of building

Building the cells of checked expressions fails with a construction error, or with the fault of a
weight that is not a signed number of 64 bits. The checks find no fault in such a weight. They end
with a fault of their own where the text of what they find cannot be written, and then an integer of
the expression has too many digits.
-/
namespace Stimulus

/-- A sequence of operations fails with its first one or behind it. -/
theorem bind_eq_error {ε α β : Type} {x : Except ε α} {f : α → Except ε β} {e : ε}
    (h : (x >>= f) = .error e) : x = .error e ∨ ∃ a, x = .ok a ∧ f a = .error e := by
  cases x with
  | error other => exact .inl (Except.error.inj h ▸ rfl)
  | ok a => exact .inr ⟨a, rfl, h⟩

/-! ## Causes that may be written -/

namespace Expr

theorem isWritable_of_mem_walk {e node : Expr} (h : e.isWritable) (hnode : node ∈ e.walk) :
    node.isWritable := by
  rw [isWritable_iff] at h ⊢
  intro n hn
  obtain ⟨inner, hinner, hn⟩ := List.mem_flatMap.mp hn
  exact h n (List.mem_flatMap.mpr ⟨inner, mem_walk_trans hnode hinner, hn⟩)

theorem isWritable_of_weightedCause? {members : List (Int × Expr)} {cause : ConstructionCause}
    (hweights : ∀ w ∈ weights members, Text.Numeral.isWritable w)
    (h : weightedCause? members = some cause) : cause.isWritable := by
  unfold weightedCause? at h
  split at h
  · cases h
    rfl
  · obtain ⟨w, hw, rfl⟩ := Option.map_eq_some_iff.mp h
    exact hweights w (List.mem_of_find?_eq_some hw)

theorem isWritable_of_nodeCause? {e : Expr} {cause : ConstructionCause} (he : e.isWritable)
    (h : e.nodeCause? = some cause) : cause.isWritable := by
  have hown : ∀ n ∈ e.ownIntegers, Text.Numeral.isWritable n := fun n hn =>
    isWritable_iff.mp he n (e.integers_eq ▸ List.mem_append_left _ hn)
  unfold nodeCause? at h
  split at h
  · split at h <;> cases h
    exact he
  · cases h
    exact he
  · split at h <;> cases h
    rfl
  · split at h <;> cases h
    rfl
  · exact isWritable_of_weightedCause? hown h
  · obtain hcause | ⟨-, hcause⟩ := Option.or_eq_some_iff.mp h
    · exact isWritable_of_weightedCause? hown hcause
    · split at hcause <;> cases hcause
      exact he
  · cases h

/-- The text of what is wrong with an expression holds only integers of the expression. -/
theorem isWritable_of_check {subject? : Option String} {position? : Option Position} {e : Expr}
    {error : Located ConstructionCause} (h : e.check subject? position? = .error error)
    (he : e.isWritable) : error.cause.isWritable := by
  unfold check at h
  split at h <;> cases h
  obtain ⟨node, hnode, hcause⟩ := List.exists_of_findSome?_eq_some ‹_›
  exact isWritable_of_nodeCause? (isWritable_of_mem_walk he hnode) hcause

end Expr

namespace Enumeration

/-- A value that is negative is stated. -/
theorem exists_item_of_mem_valuedFrom {start : Nat} {items : List EnumItem} {item : String × Int}
    (h : item ∈ EnumDecl.valuedFrom start items) (hvalue : item.2 < 0) :
    ∃ stated ∈ items, stated.value? = some item.2 := by
  induction items generalizing start with
  | nil => cases h
  | cons first rest ih =>
    obtain rfl | hrest := List.mem_cons.mp h
    · refine ⟨first, List.mem_cons_self .., ?_⟩
      cases hstated : first.value? with
      | none =>
        simp only [hstated, Option.getD_none] at hvalue
        omega
      | some value => rfl
    · obtain ⟨stated, hmem, hstated⟩ := ih hrest
      exact ⟨stated, List.mem_cons_of_mem _ hmem, hstated⟩

theorem isWritable_of_itemCause? {enum : String} {seen : List String} {items : List (String × Int)}
    {cause : ConstructionCause}
    (hitems : ∀ item ∈ items, item.2 < 0 → Text.Numeral.isWritable item.2)
    (h : itemCause? enum seen items = some cause) : cause.isWritable := by
  induction items generalizing seen with
  | nil => cases h
  | cons item rest ih =>
    rw [List.forall_mem_cons] at hitems
    unfold itemCause? at h
    split at h
    · cases h
      rfl
    · split at h
      · cases h
        exact hitems.1 ‹_›
      · exact ih hitems.2 h

/-- The text of what is wrong with enumerations holds only values of their items. -/
theorem isWritable_of_declareAll {others : List Enumeration} {enums : List EnumDecl}
    {error : Located ConstructionCause} (h : declareAll others enums = .error error)
    (henums : ∀ e ∈ enums, ∀ item ∈ e.items, ∀ value, item.value? = some value →
      Text.Numeral.isWritable value) : error.cause.isWritable := by
  induction enums generalizing others with
  | nil => cases h
  | cons e rest ih =>
    rw [List.forall_mem_cons] at henums
    unfold declareAll at h
    split at h
    · rename_i hcause
      cases h
      unfold cause? at hcause
      split at hcause
      · cases hcause
        rfl
      · obtain hitem | ⟨-, hempty⟩ := Option.or_eq_some_iff.mp hcause
        · refine isWritable_of_itemCause? (fun item hmem hvalue => ?_) hitem
          obtain ⟨stated, hstated, heq⟩ := exists_item_of_mem_valuedFrom hmem hvalue
          exact henums.1 stated hstated _ heq
        · split at hempty <;> cases hempty
          rfl
    · exact ih h henums.2

end Enumeration

/-! ## Errors -/

/-- The errors that building can end with. One fault needs a weight that is too wide, and the other
one an integer that may not be written. -/
inductive Error.OfBuilding (wide unwritable : Prop) : Error → Prop
  | construction (located : Located ConstructionCause) :
    OfBuilding wide unwritable (.construction located)
  | tooWide (h : wide) : OfBuilding wide unwritable (.fault .tooWide)
  | unwritable (h : unwritable) : OfBuilding wide unwritable (.fault .unwritableNumeral)

namespace Error.OfBuilding

variable {wide wider unwritable other : Prop} {error : Error}

theorem mono (h : error.OfBuilding wide unwritable) (hwide : wide → wider)
    (hunwritable : unwritable → other) : error.OfBuilding wider other := by
  cases h with
  | construction located => exact .construction located
  | tooWide h => exact .tooWide (hwide h)
  | unwritable h => exact .unwritable (hunwritable h)

theorem of_mapError {α : Type} {x : Except (Located ConstructionCause) α}
    (hx : ∀ located, x = .error located → ¬located.cause.isWritable → unwritable)
    (h : x.mapError Error.ofConstruction = .error error) : error.OfBuilding wide unwritable := by
  cases x with
  | error located =>
    cases h
    unfold ofConstruction
    split
    · exact .construction located
    · exact .unwritable (hx located rfl ‹_›)
  | ok a => cases h

end Error.OfBuilding

namespace Scope

variable {scope : Scope} {use : Use} {error : Error}

theorem bodyBelow_of_le (scope : Scope) (use : Use) {bound j : Nat} (hj : bound ≤ j) :
    ∃ located, scope.bodyBelow use bound j = .error (.construction located) := by
  induction bound with
  | zero => exact ⟨_, rfl⟩
  | succ bound ih =>
    rw [bodyBelow, if_neg (by omega)]
    exact ih (by omega)

/-- A reference that is not bound does not resolve, or it copies a variable whose cells are not
built. -/
theorem bind_eq_error {body : Nat → Except Error Cell} {position? : Option Position}
    {ref : Identifier} (h : scope.bind use body position? ref = .error error) :
    (∃ located, error = .construction located) ∨
      ∃ name j, scope.resolveTarget use ref = .ok (.copy name j) ∧ body j = .error error := by
  cases htarget : scope.resolveTarget use ref with
  | error cause =>
    rw [bind_of_resolveTarget_error htarget] at h
    cases h
    exact .inl ⟨_, rfl⟩
  | ok target =>
    rw [bind_of_resolveTarget htarget] at h
    cases target with
    | copy name j =>
      refine .inr ⟨name, j, rfl, ?_⟩
      rw [cellOf] at h
      cases hbody : body j with
      | ok c =>
        rw [hbody] at h
        cases h
      | error other =>
        rw [hbody] at h
        cases h
        rfl
    | constant | enumeration | read | next => cases h

/-- The cells of a sound expression are built over sound variables, or the error is one of
building. -/
theorem error_of_build (hscope : ∀ d ∈ scope.declarations, d.expr.Sound) {bound : Nat}
    {position? : Option Position} {e : Expr} (he : e.Sound)
    (h : Cell.build (scope.bind use (scope.bodyBelow use bound) position?) e = .error error) :
    error.OfBuilding (¬e.WeightsFit ∨ ∃ d ∈ scope.declarations, ¬d.expr.WeightsFit) False := by
  induction bound using Nat.strongRecOn generalizing e position? with
  | ind bound ih =>
    have houtcome : Cell.BuildOutcome (scope.bind use (scope.bodyBelow use bound) position?) e.walk
        (.error error) := h ▸ Cell.buildOutcome_build e
    cases houtcome with
    | refused hnode hrefuses =>
      obtain ⟨rfl, hwide⟩ := he.refuses hnode hrefuses
      exact .tooWide (.inl hwide)
    | unbound href hbind =>
      obtain ⟨located, rfl⟩ | ⟨name, j, htarget, hbody⟩ := bind_eq_error hbind
      · exact .construction located
      · obtain ⟨d, hd⟩ := exists_declaration_of_copy htarget
        have hmem := List.mem_of_getElem? hd
        obtain hj | hj := Nat.lt_or_ge j bound
        · rw [bodyBelow_eq hj hd] at hbody
          refine (ih j hj (hscope d hmem) hbody).mono ?_ id
          rintro (hwide | hwide)
          · exact .inr ⟨d, hmem, hwide⟩
          · exact .inr hwide
        · obtain ⟨located, hlocated⟩ := bodyBelow_of_le scope use hj
          rw [hlocated] at hbody
          cases hbody
          exact .construction located

theorem Compiled.sound_of_mem {cells : Array Cell} (hc : scope.Compiled cells) :
    ∀ d ∈ scope.declarations, d.expr.Sound := by
  intro d hd
  obtain ⟨j, hj⟩ := List.mem_iff_getElem?.mp hd
  exact hc.sound hj

/-- An expression is checked and built in a compiled scope, or the error is one of building. -/
theorem Compiled.error_of_check {cells : Array Cell} (hc : scope.Compiled cells)
    {subject? : Option String} {position? : Option Position} {e : Expr}
    (h : ((e.check subject? position?).mapError Error.ofConstruction >>= fun _ =>
      scope.buildCell use position? e) = .error error) :
    error.OfBuilding (¬e.WeightsFit ∨ ∃ d ∈ scope.declarations, ¬d.expr.WeightsFit)
      ¬e.isWritable := by
  obtain hrefused | ⟨_, hcheck, hbuild⟩ := Stimulus.bind_eq_error h
  · exact .of_mapError (fun _ h hcause he => hcause (Expr.isWritable_of_check h he)) hrefused
  · have hsound := (Expr.accepts_check subject? position? e).iff.mp ⟨_, hcheck⟩
    exact (error_of_build hc.sound_of_mem hsound hbuild).mono id False.elim

/-- Declarations are compiled behind others, or the error is one of building. -/
theorem error_of_compileFrom {cells : Array Cell} (hc : scope.Compiled cells)
    {declarations : List Declaration} (h : scope.compileFrom cells declarations = .error error) :
    error.OfBuilding (∃ d ∈ scope.declarations ++ declarations, ¬d.expr.WeightsFit)
      (∃ d ∈ declarations, ¬d.expr.isWritable) := by
  induction declarations generalizing scope cells with
  | nil => cases h
  | cons d rest ih =>
    rw [compileFrom] at h
    split at h
    · rename_i other hother
      cases h
      unfold compileDeclaration at hother
      split at hother
      · cases hother
        exact .construction _
      · refine (hc.error_of_check hother).mono ?_ fun he => ⟨d, by simp, he⟩
        rintro (hwide | ⟨d', hd', hwide⟩)
        · exact ⟨d, by simp, hwide⟩
        · exact ⟨d', by simp [hd'], hwide⟩
    · rename_i cell hcell
      have hrest := ih (hc.declare hcell) h
      rw [declarations_declare, List.append_assoc] at hrest
      refine hrest.mono id ?_
      rintro ⟨d', hd', he⟩
      exact ⟨d', List.mem_cons_of_mem _ hd', he⟩

end Scope

namespace Model

variable {settings : Settings} {forest : Forest} {m : Model} {error : Error}

/-- A forest that is not compiled is refused with a construction error, for the weight of one of its
declarations, or for an integer that may not be written. -/
theorem error_of_compile (h : compile settings forest = .error error) :
    error.OfBuilding (∃ d ∈ forest.declarations, ¬d.expr.WeightsFit) ¬forest.Writable := by
  obtain hrefused | ⟨enumerations, -, h⟩ := bind_eq_error h
  · refine .of_mapError (fun _ hdeclare hcause hforest => hcause ?_) hrefused
    exact Enumeration.isWritable_of_declareAll hdeclare hforest.item
  · obtain hcells | ⟨_, -, h⟩ := bind_eq_error h
    · refine (Scope.error_of_compileFrom (.empty _ _) hcells).mono id ?_
      rintro ⟨d, hd, he⟩ hforest
      exact he (hforest.expr d hd)
    · cases h

/-- An expression that is not built to be evaluated once is refused with a construction error, for a
weight of its own or of a declaration, or for an integer of its own that may not be written. -/
theorem error_of_buildOnce (hm : compile settings forest = .ok m) (calls : List Call) {e : Expr}
    (h : (m.after calls).buildOnce e = .error error) :
    error.OfBuilding (¬e.WeightsFit ∨ ∃ d ∈ forest.declarations, ¬d.expr.WeightsFit)
      ¬e.isWritable := by
  obtain ⟨hcompiled, hdeclarations, -⟩ := compile_eq_ok hm
  rw [buildOnce, (m.sameOrigin_after calls).scope] at h
  rw [← hdeclarations]
  exact hcompiled.error_of_check h

end Model

end Stimulus
