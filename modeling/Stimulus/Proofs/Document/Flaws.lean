import Stimulus.Proofs.Document.Format

/-!
# Issues are flaws

Every issue of a check is true of the document: its path leads to a value, through keys that belong
to the format and indices of lists, and its problem holds of that value. The last step may also be
to a key that is missing or to one that should not be there. Short forms are gone through as what
they stand for: a name has a `path`, and a pair has a `weight` and an `expr`.
-/
namespace Stimulus.Document

/-- What a refusal says of a value. -/
def Refusal.Tells : Refusal → Json → Prop
  | boolean, d => ∃ b, d = .bool b
  | noExpression value, d => d = value
  | noType, d => ∃ fields, d = .obj fields ∧ fields.lookup "type" = none
  | unknownType value, d => ∃ fields, d = .obj fields ∧ fields.lookup "type" = some value ∧
    ∀ form : ExprForm, value ≠ .str form.name
  | noPair, d => ∃ items, d = .arr items ∧ items.length ≠ 2
  | unknownUnary symbol, d => d = .str symbol ∧ UnaryOp.ofSymbol? symbol = none
  | unknownBinary symbol, d => d = .str symbol ∧ BinaryOp.ofSymbol? symbol = none

/-- What a problem says of a value. The problems of keys are those of the object around them. -/
def Problem.Tells : Problem → Json → Prop
  | notInteger, d => ∀ n, d ≠ .int n
  | notString, d => ∀ s, d ≠ .str s
  | loneHalf, d => (∃ s, d = .str s ∧ Text.hasHalf s) ∨
    ∃ fields, d = .obj fields ∧ ∃ field ∈ fields, Text.hasHalf field.1
  | emptyString, d => d = .str ""
  | notList, d => ∀ items, d ≠ .arr items
  | notRecord _, d => ∀ fields, d ≠ .obj fields
  | notAccess, d => ∀ access : Access, d ≠ .str access.name
  | refused reason, d => reason.Tells d
  | missing, _ | unknownKey, _ => False

/-- A key of the format; none of them is the name of an expression form. -/
structure IsFieldName (key : String) : Prop where
  ne_empty : key ≠ ""
  no_form : ExprForm.ofName? key = none

instance (key : String) : Decidable (IsFieldName key) :=
  decidable_of_iff (key ≠ "" ∧ ExprForm.ofName? key = none)
    ⟨fun h => ⟨h.1, h.2⟩, fun h => ⟨h.1, h.2⟩⟩

/-- The keys that an object may have. -/
inductive KnownKeys (fields : List (String × Json)) : List String → Prop
  | expression {form : ExprForm} (h : fields.lookup "type" = some (.str form.name)) :
    KnownKeys fields ("type" :: form.keys)
  | record (form : RecordForm) : KnownKeys fields form.keys

/-- A document with a problem at the end of a path. -/
inductive Flawed : Json → List Step → Problem → Prop
  | here {d : Json} {problem : Problem} (h : problem.Tells d) : Flawed d [] problem
  | missing {fields : List (String × Json)} {key : String} (hkey : IsFieldName key)
    (h : fields.lookup key = none) : Flawed (.obj fields) [.key key] .missing
  | unknown {fields : List (String × Json)} {key : String} {value : Json} {known : List String}
    (hknown : KnownKeys fields known) (hmem : (key, value) ∈ fields) (h : key ∉ known) :
    Flawed (.obj fields) [.key key] .unknownKey
  | field {fields : List (String × Json)} {key : String} {value : Json} {path : List Step}
    {problem : Problem} (hkey : IsFieldName key) (hvalue : fields.lookup key = some value)
    (h : Flawed value path problem) : Flawed (.obj fields) (.key key :: path) problem
  | element {items : List Json} {i : Nat} {item : Json} {path : List Step} {problem : Problem}
    (hitem : items[i]? = some item) (h : Flawed item path problem) :
    Flawed (.arr items) (.index i :: path) problem
  | name {s : String} {problem : Problem} (h : problem.Tells (.str s)) :
    Flawed (.str s) [.key "path"] problem
  | weight {weight expr : Json} {path : List Step} {problem : Problem}
    (h : Flawed weight path problem) : Flawed (.arr [weight, expr]) (.key "weight" :: path) problem
  | weighted {weight expr : Json} {path : List Step} {problem : Problem}
    (h : Flawed expr path problem) : Flawed (.arr [weight, expr]) (.key "expr" :: path) problem

variable {α β γ : Type}

@[simp] theorem Checked.issues_under (step : Step) (checked : Checked α) :
    (checked.under step).issues =
      checked.issues.map fun issue => { issue with path := step :: issue.path } := by
  cases checked <;> rfl

/-- An outcome all of whose issues are flaws of a document. -/
def FlawsOf (d : Json) (checked : Checked α) : Prop :=
  ∀ issue ∈ checked.issues, Flawed d issue.path issue.problem

namespace FlawsOf

variable {d : Json} {checked : Checked α}

theorem valid (value : α) : FlawsOf d (.valid value) := by simp [FlawsOf]

theorem refuse {problem : Problem} (h : problem.Tells d) :
    FlawsOf d (Checked.refuse problem : Checked α) := by
  simpa [FlawsOf, Checked.refuse, Checked.issues] using Flawed.here h

theorem map (h : FlawsOf d checked) (f : α → β) : FlawsOf d (checked.map f) := by
  rwa [FlawsOf, Checked.issues_map]

theorem both (h : FlawsOf d checked) {other : Checked β} (hother : FlawsOf d other)
    (f : α → β → γ) : FlawsOf d (checked.both f other) := by
  rw [FlawsOf, Checked.issues_both, List.forall_mem_append]
  exact ⟨h, hother⟩

/-- The flaws of a part are flaws of the whole, behind the step to the part. -/
theorem under {part : Json} (h : FlawsOf part checked) {step : Step}
    (hstep : ∀ path problem, Flawed part path problem → Flawed d (step :: path) problem) :
    FlawsOf d (checked.under step) := by
  rw [FlawsOf, Checked.issues_under, List.forall_mem_map]
  exact fun issue hissue => hstep _ _ (h issue hissue)

section

variable {key : String} {read : Json → Checked α} {fields : List (String × Json)}

theorem required (hkey : IsFieldName key)
    (hread : ∀ value, fields.lookup key = some value → FlawsOf value (read value)) :
    FlawsOf (.obj fields) (required key read fields) := by
  unfold Document.required
  split
  · rename_i hnone
    simpa [FlawsOf, absent, Checked.refuse, Checked.under, Checked.issues] using
      Flawed.missing hkey hnone
  · rename_i value hvalue
    exact (hread value hvalue).under fun _ _ => .field hkey hvalue

theorem optional (hkey : IsFieldName key)
    (hread : ∀ value, fields.lookup key = some value → FlawsOf value (read value)) :
    FlawsOf (.obj fields) (optional key read fields) := by
  unfold Document.optional
  split
  · exact valid none
  · exact valid none
  · rename_i value _ hvalue
    exact ((hread value hvalue).map some).under fun _ _ => .field hkey hvalue

theorem closed {known : List String} (hknown : KnownKeys fields known)
    (h : FlawsOf (.obj fields) checked) : FlawsOf (.obj fields) (closed known fields checked) := by
  unfold Document.closed
  split
  · rename_i hhalf
    rw [List.any_eq_true] at hhalf
    exact refuse (.inr ⟨fields, rfl, hhalf⟩)
  · rw [FlawsOf, Checked.issues_followedBy, List.forall_mem_append]
    refine ⟨h, ?_⟩
    simp only [unknownKeys, List.forall_mem_map, List.mem_filter, Bool.not_eq_true',
      List.contains_eq_mem, decide_eq_false_iff_not]
    rintro ⟨key, value⟩ ⟨hmem, hkey⟩
    exact .unknown hknown hmem hkey

end

/-- The elements of a list have their flaws behind their indices. -/
theorem collect {read : Json → Checked α} {items rest : List Json} {start : Nat}
    (hrest : items.drop start = rest) (hread : ∀ item ∈ rest, FlawsOf item (read item)) :
    FlawsOf (.arr items) (collect start (rest.map read)) := by
  induction rest generalizing start with
  | nil => exact valid []
  | cons item rest ih =>
    rw [List.forall_mem_cons] at hread
    have hitem : items[start]? = some item := by
      rw [← Nat.add_zero start, ← List.getElem?_drop, hrest, List.getElem?_cons_zero]
    have hmore : items.drop (start + 1) = rest := by rw [← List.tail_drop, hrest, List.tail_cons]
    exact (hread.1.under fun _ _ => .element hitem).both (ih hmore hread.2) List.cons

theorem listOf {read : Json → Checked α}
    (hread : ∀ items, d = .arr items → ∀ item ∈ items, FlawsOf item (read item)) :
    FlawsOf d (listOf read d) := by
  cases d with
  | arr items => exact collect rfl (hread items rfl)
  | _ => exact refuse (by rintro _ ⟨⟩)

theorem listField {key : String} {read : Json → Checked α} {fields : List (String × Json)}
    (hkey : IsFieldName key)
    (hread : ∀ value, fields.lookup key = some value → FlawsOf value (Document.listOf read value)) :
    FlawsOf (.obj fields) (listField key read fields) := by
  unfold Document.listField
  split
  · exact valid []
  · rename_i value hvalue
    exact (hread value hvalue).under fun _ _ => .field hkey hvalue

end FlawsOf

/-! ## Plain values -/

theorem integer_flaws (d : Json) : FlawsOf d (integer d) := by
  cases d with
  | int n => exact .valid n
  | _ => exact .refuse (by rintro _ ⟨⟩)

theorem string_flaws (d : Json) : FlawsOf d (string d) := by
  cases d with
  | str s => exact .valid s
  | _ => exact .refuse (by rintro _ ⟨⟩)

theorem nonemptyString_flaws (d : Json) : FlawsOf d (nonemptyString d) := by
  cases d with
  | str s =>
    simp only [nonemptyString]
    split
    · rename_i hhalf
      exact .refuse (.inl ⟨s, rfl, hhalf⟩)
    · split
      · rename_i hempty
        exact .refuse (by rw [String.isEmpty_iff.mp hempty]; rfl)
      · exact .valid s
  | _ => exact .refuse (by rintro _ ⟨⟩)

theorem accessName_flaws (d : Json) : FlawsOf d (accessName d) := by
  cases d with
  | str s =>
    simp only [accessName]
    split
    · exact .valid _
    · rename_i hnone
      cases hhalf : Text.hasHalf s with
      | true => exact .refuse (.inl ⟨s, rfl, hhalf⟩)
      | false =>
        refine .refuse ?_
        rintro access ⟨⟩
        simp at hnone
  | _ => exact .refuse (by rintro _ ⟨⟩)

theorem unarySymbol_flaws (d : Json) : FlawsOf d (unarySymbol d) := by
  cases d with
  | str s =>
    simp only [unarySymbol]
    split
    · exact .valid _
    · rename_i hnone
      exact .refuse ⟨rfl, hnone⟩
  | _ => exact .refuse (by rintro _ ⟨⟩)

theorem binarySymbol_flaws (d : Json) : FlawsOf d (binarySymbol d) := by
  cases d with
  | str s =>
    simp only [binarySymbol]
    split
    · exact .valid _
    · rename_i hnone
      exact .refuse ⟨rfl, hnone⟩
  | _ => exact .refuse (by rintro _ ⟨⟩)

theorem position_flaws (d : Json) : FlawsOf d (position d) := by
  cases d with
  | obj fields =>
    refine .closed (.record .position) (.both (.both ?_ ?_ _) ?_ _)
    · exact .required (by decide) fun value _ => integer_flaws value
    · exact .required (by decide) fun value _ => integer_flaws value
    · exact .optional (by decide) fun value _ => string_flaws value
  | _ => exact .refuse (by rintro _ ⟨⟩)

/-! ## Expressions -/

theorem reference_flaws (fields : List (String × Json)) :
    FlawsOf (.obj fields) (reference fields) := by
  refine .both (.both ?_ ?_ _) ?_ _
  · exact .required (by decide) fun value _ => nonemptyString_flaws value
  · exact .optional (by decide) fun value _ => accessName_flaws value
  · exact .optional (by decide) fun value _ => position_flaws value

theorem shortReference_flaws (s : String) : FlawsOf (.str s) (shortReference s) := by
  have hname {problem : Problem} (h : problem.Tells (.str s)) :
      FlawsOf (.str s) ((Checked.refuse problem : Checked String).under (.key "path")) := by
    simpa [FlawsOf, Checked.refuse, Checked.under, Checked.issues] using Flawed.name h
  refine .map ?_ _
  simp only [nonemptyString]
  split
  · rename_i hhalf
    exact hname (.inl ⟨s, rfl, hhalf⟩)
  · split
    · rename_i hempty
      exact hname (by rw [String.isEmpty_iff.mp hempty]; rfl)
    · exact .valid s

theorem formOf_flaws (fields : List (String × Json)) : FlawsOf (.obj fields) (formOf fields) := by
  unfold formOf
  split
  · rename_i hnone
    exact .refuse ⟨fields, rfl, hnone⟩
  · rename_i s hs
    split
    · exact .valid _
    · rename_i hnone
      refine .refuse ⟨fields, rfl, hs, fun form heq => ?_⟩
      cases heq
      simp at hnone
  · rename_i value hother hvalue
    exact .refuse ⟨fields, rfl, hvalue, fun form => hother _⟩

theorem weightedMember_flaws {d : Json}
    (ih : ∀ part, sizeOf part < sizeOf d → FlawsOf part (expression part)) :
    FlawsOf d (weightedMember d) := by
  unfold weightedMember
  split
  · rename_i weight expr
    have hexpr : sizeOf expr < sizeOf (Json.arr [weight, expr]) := by
      simp
      omega
    exact ((integer_flaws weight).under fun _ _ => .weight).both
      ((ih expr hexpr).under fun _ _ => .weighted) _
  · rename_i items hpair
    refine .refuse ⟨items, rfl, fun hlength => ?_⟩
    obtain ⟨weight, expr, rfl⟩ := List.length_eq_two.mp hlength
    exact hpair _ _ rfl
  · rename_i fields
    rw [exprField_eq_required]
    refine .closed (.record .weighted) (.both ?_ ?_ _)
    · exact .required (by decide) fun value _ => integer_flaws value
    · exact .required (by decide) fun value hvalue => ih value (sizeOf_lt_of_lookup hvalue)
  · rename_i hother
    exact .refuse hother

/-- The issues of the keys of a form are flaws, if those of the expressions below are. -/
theorem formFields_flaws {fields : List (String × Json)}
    (hexpr : ∀ key value, fields.lookup key = some value → FlawsOf value (expression value))
    (hmembers : ∀ value, fields.lookup "members" = some value →
      FlawsOf value (listOf expression value))
    (hweighted : ∀ value, fields.lookup "members" = some value →
      FlawsOf value (listOf weightedMember value)) (form : ExprForm) :
    FlawsOf (.obj fields) (formFields fields form) := by
  have hinteger {key : String} (hkey : IsFieldName key) :
      FlawsOf (.obj fields) (required key integer fields) :=
    .required hkey fun value _ => integer_flaws value
  have hone {key : String} (hkey : IsFieldName key) :
      FlawsOf (.obj fields) (required key expression fields) := .required hkey (hexpr key)
  have hall : FlawsOf (.obj fields) (required "members" (listOf expression) fields) :=
    .required (by decide) hmembers
  have hweights : FlawsOf (.obj fields) (required "members" (listOf weightedMember) fields) :=
    .required (by decide) hweighted
  cases form with
  | literal => exact (hinteger (by decide)).map _
  | enumItem =>
    exact .both (.required (by decide) fun value _ => string_flaws value) (hinteger (by decide)) _
  | identifier => exact reference_flaws fields
  | range => exact (hone (by decide)).both (hone (by decide)) _
  | pattern | sample | pool => exact hall.map _
  | sequence =>
    exact ((hone (by decide)).both (hone (by decide)) _).both (.optional (by decide) (hexpr _)) _
  | weightedSample | weightedPool => exact hweights.map _
  | unary =>
    exact .both (.required (by decide) fun value _ => unarySymbol_flaws value) (hone (by decide)) _
  | binary =>
    refine .both (.both ?_ (hone (by decide)) _) (hone (by decide)) _
    exact .required (by decide) fun value _ => binarySymbol_flaws value

theorem expression_flaws (d : Json) : FlawsOf d (expression d) := by
  -- The induction is on the size of the value: every part of it is smaller.
  refine (measure (sizeOf : Json → Nat)).wf.induction (C := fun d => FlawsOf d (expression d)) d ?_
  intro d ih
  replace ih (part : Json) (hpart : sizeOf part < sizeOf d) : FlawsOf part (expression part) :=
    ih part hpart
  cases d with
  | bool b => exact .refuse ⟨b, rfl⟩
  | int n => exact .valid _
  | str s => exact shortReference_flaws s
  | obj fields =>
    cases hform : formOf fields with
    | invalid first others =>
      have hflaws := formOf_flaws fields
      rw [expression, hform]
      rw [hform] at hflaws
      exact hflaws
    | valid form =>
      have hitem {items : List Json} (hitems : fields.lookup "members" = some (.arr items))
          {item part : Json} (hmem : item ∈ items) (hpart : sizeOf part ≤ sizeOf item) :
          FlawsOf part (expression part) := by
        have hlist := sizeOf_lt_of_lookup hitems
        have hone := List.sizeOf_lt_of_mem hmem
        refine ih part ?_
        simp only [Json.arr.sizeOf_spec] at hlist
        omega
      rw [expression_obj hform]
      refine .closed (.expression (formOf_eq_valid_iff.mp hform)) (formFields_flaws ?_ ?_ ?_ form)
      · intro key value hlookup
        exact ih value (sizeOf_lt_of_lookup hlookup)
      · rintro value hlookup
        refine .listOf ?_
        rintro items rfl item hmem
        exact hitem hlookup hmem (Nat.le_refl _)
      · rintro value hlookup
        refine .listOf ?_
        rintro items rfl item hmem
        refine weightedMember_flaws fun part hpart => ?_
        exact hitem hlookup hmem (Nat.le_of_lt hpart)
  | null | float | arr => exact .refuse rfl

/-! ## Forests -/

theorem enumItem_flaws (d : Json) : FlawsOf d (enumItem d) := by
  cases d with
  | str name => exact .valid _
  | obj fields =>
    refine .closed (.record .enumMember) (.both ?_ ?_ _)
    · exact .required (by decide) fun value _ => string_flaws value
    · exact .optional (by decide) fun value _ => integer_flaws value
  | _ => exact .refuse (by rintro _ ⟨⟩)

theorem enumDecl_flaws (d : Json) : FlawsOf d (enumDecl d) := by
  cases d with
  | obj fields =>
    refine .closed (.record .enum) (.both (.both ?_ ?_ _) ?_ _)
    · exact .required (by decide) fun value _ => string_flaws value
    · exact .required (by decide) fun _ _ => .listOf fun _ _ item _ => enumItem_flaws item
    · exact .optional (by decide) fun value _ => position_flaws value
  | _ => exact .refuse (by rintro _ ⟨⟩)

theorem declaration_flaws (d : Json) : FlawsOf d (declaration d) := by
  cases d with
  | obj fields =>
    refine .closed (.record .declaration) (.both (.both ?_ ?_ _) ?_ _)
    · exact .required (by decide) fun value _ => nonemptyString_flaws value
    · exact .required (by decide) fun value _ => expression_flaws value
    · exact .optional (by decide) fun value _ => position_flaws value
  | _ => exact .refuse (by rintro _ ⟨⟩)

theorem forest_flaws (d : Json) : FlawsOf d (forest d) := by
  cases d with
  | obj fields =>
    refine .closed (.record .forest) (.both ?_ ?_ _)
    · exact .listField (by decide) fun _ _ => .listOf fun _ _ item _ => enumDecl_flaws item
    · exact .listField (by decide) fun _ _ => .listOf fun _ _ item _ => declaration_flaws item
  | _ => exact .refuse (by rintro _ ⟨⟩)

end Stimulus.Document
