import Stimulus.Document.Load
import Stimulus.Proofs.Document.Checked

/-!
# The format of documents

What a document says, told without the decoder: relations between document values and the
expressions, enumerations, variables and forests that they denote. The decoder agrees with them on
every value, and what denotes nothing is refused with a format error.
-/
namespace Stimulus.Document

/-! ## Plain values -/

inductive DenotesInteger : Json → Int → Prop
  | int (n : Int) : DenotesInteger (.int n) n

inductive DenotesString : Json → String → Prop
  | str (s : String) : DenotesString (.str s) s

/-- A text that can name something: it is not empty, and all of it is characters. -/
structure IsName (s : String) : Prop where
  nonempty : s ≠ ""
  whole : Text.hasHalf s = false

inductive DenotesName : Json → String → Prop
  | str {s : String} (h : IsName s) : DenotesName (.str s) s

-- The names of accesses and the symbols of operators are those that the expressions themselves
-- know.

inductive DenotesAccess : Json → Access → Prop
  | str {s : String} {access : Access} (h : Access.ofName s = .ok access) :
    DenotesAccess (.str s) access

inductive DenotesUnary : Json → UnaryOp → Prop
  | str {s : String} {op : UnaryOp} (h : UnaryOp.ofSymbol s = .ok op) : DenotesUnary (.str s) op

inductive DenotesBinary : Json → BinaryOp → Prop
  | str {s : String} {op : BinaryOp} (h : BinaryOp.ofSymbol s = .ok op) : DenotesBinary (.str s) op

/-! ## Expressions -/

inductive DenotesPosition : Json → Position → Prop
  | obj {fields : List (String × Json)} {line column : Int} {file? : Option String}
      (only : HasOnly ["line", "column", "file"] fields)
      (hline : Required DenotesInteger (fields.lookup "line") line)
      (hcolumn : Required DenotesInteger (fields.lookup "column") column)
      (hfile : Optionally DenotesString (fields.lookup "file") file?) :
    DenotesPosition (.obj fields) { line, column, file? }

/-- An object that tells its form, with no other keys than those of the form. -/
structure IsObject (type : String) (keys : List String) (fields : List (String × Json)) : Prop where
  tag : fields.lookup "type" = some (.str type)
  only : HasOnly ("type" :: keys) fields

mutual

/-- A value denotes an expression: an integer a literal, a string a reference, and an object the
expression of its form. -/
inductive DenotesExpr : Json → Expr → Prop
  | int (n : Int) : DenotesExpr (.int n) (.literal n)
  | str {s : String} (h : IsName s) : DenotesExpr (.str s) (.reference { path := s })
  | literal {fields : List (String × Json)} {value : Int}
      (object : IsObject "literal" ["value"] fields)
      (hvalue : Required DenotesInteger (fields.lookup "value") value) :
    DenotesExpr (.obj fields) (.literal value)
  | item {fields : List (String × Json)} {name : String} {value : Int}
      (object : IsObject "enum_item" ["name", "value"] fields)
      (hname : Required DenotesString (fields.lookup "name") name)
      (hvalue : Required DenotesInteger (fields.lookup "value") value) :
    DenotesExpr (.obj fields) (.item name value)
  | reference {fields : List (String × Json)} {path : String} {access? : Option Access}
      {position? : Option Position}
      (object : IsObject "identifier" ["path", "method", "position"] fields)
      (hpath : Required DenotesName (fields.lookup "path") path)
      (haccess : Optionally DenotesAccess (fields.lookup "method") access?)
      (hposition : Optionally DenotesPosition (fields.lookup "position") position?) :
    DenotesExpr (.obj fields) (.reference { path, access?, position? })
  | range {fields : List (String × Json)} {min max : Expr}
      (object : IsObject "range" ["min", "max"] fields)
      (hmin : Required DenotesExpr (fields.lookup "min") min)
      (hmax : Required DenotesExpr (fields.lookup "max") max) :
    DenotesExpr (.obj fields) (.range min max)
  | pattern {fields : List (String × Json)} {members : List Expr}
      (object : IsObject "pattern" ["members"] fields)
      (hmembers : Required (Elementwise DenotesExpr) (fields.lookup "members") members) :
    DenotesExpr (.obj fields) (.pattern members)
  | sequence {fields : List (String × Json)} {first last : Expr} {increment? : Option Expr}
      (object : IsObject "sequence" ["first", "last", "increment"] fields)
      (hfirst : Required DenotesExpr (fields.lookup "first") first)
      (hlast : Required DenotesExpr (fields.lookup "last") last)
      (hincrement : Optionally DenotesExpr (fields.lookup "increment") increment?) :
    DenotesExpr (.obj fields) (.sequence first last (increment?.getD (.literal 1)))
  | sample {fields : List (String × Json)} {members : List Expr}
      (object : IsObject "sample_with_replacement" ["members"] fields)
      (hmembers : Required (Elementwise DenotesExpr) (fields.lookup "members") members) :
    DenotesExpr (.obj fields) (.sample members)
  | pool {fields : List (String × Json)} {members : List Expr}
      (object : IsObject "sample_without_replacement" ["members"] fields)
      (hmembers : Required (Elementwise DenotesExpr) (fields.lookup "members") members) :
    DenotesExpr (.obj fields) (.pool members)
  | weightedSample {fields : List (String × Json)} {members : List (Int × Expr)}
      (object : IsObject "weighted_sample_with_replacement" ["members"] fields)
      (hmembers : Required (Elementwise DenotesWeighted) (fields.lookup "members") members) :
    DenotesExpr (.obj fields) (.weightedSample members)
  | weightedPool {fields : List (String × Json)} {members : List (Int × Expr)}
      (object : IsObject "weighted_sample_without_replacement" ["members"] fields)
      (hmembers : Required (Elementwise DenotesWeighted) (fields.lookup "members") members) :
    DenotesExpr (.obj fields) (.weightedPool members)
  | unary {fields : List (String × Json)} {op : UnaryOp} {operand : Expr}
      (object : IsObject "unary" ["op", "operand"] fields)
      (hop : Required DenotesUnary (fields.lookup "op") op)
      (hoperand : Required DenotesExpr (fields.lookup "operand") operand) :
    DenotesExpr (.obj fields) (.unary op operand)
  | binary {fields : List (String × Json)} {op : BinaryOp} {left right : Expr}
      (object : IsObject "binary" ["op", "left", "right"] fields)
      (hop : Required DenotesBinary (fields.lookup "op") op)
      (hleft : Required DenotesExpr (fields.lookup "left") left)
      (hright : Required DenotesExpr (fields.lookup "right") right) :
    DenotesExpr (.obj fields) (.binary op left right)

/-- A weight and an expression, as a pair or as an object. -/
inductive DenotesWeighted : Json → Int × Expr → Prop
  | pair {w d : Json} {weight : Int} {e : Expr} (hweight : DenotesInteger w weight)
      (hexpr : DenotesExpr d e) : DenotesWeighted (.arr [w, d]) (weight, e)
  | obj {fields : List (String × Json)} {weight : Int} {e : Expr}
      (only : HasOnly ["weight", "expr"] fields)
      (hweight : Required DenotesInteger (fields.lookup "weight") weight)
      (hexpr : Required DenotesExpr (fields.lookup "expr") e) :
    DenotesWeighted (.obj fields) (weight, e)

end

/-! ## Forests -/

/-- An item of an enumeration, as its name or as an object. -/
inductive DenotesEnumItem : Json → EnumItem → Prop
  | str (name : String) : DenotesEnumItem (.str name) { name }
  | obj {fields : List (String × Json)} {name : String} {value? : Option Int}
      (only : HasOnly ["name", "value"] fields)
      (hname : Required DenotesString (fields.lookup "name") name)
      (hvalue : Optionally DenotesInteger (fields.lookup "value") value?) :
    DenotesEnumItem (.obj fields) { name, value? }

inductive DenotesEnum : Json → EnumDecl → Prop
  | obj {fields : List (String × Json)} {name : String} {items : List EnumItem}
      {position? : Option Position}
      (only : HasOnly ["name", "items", "position"] fields)
      (hname : Required DenotesString (fields.lookup "name") name)
      (hitems : Required (Elementwise DenotesEnumItem) (fields.lookup "items") items)
      (hposition : Optionally DenotesPosition (fields.lookup "position") position?) :
    DenotesEnum (.obj fields) { name, items, position? }

inductive DenotesDeclaration : Json → Declaration → Prop
  | obj {fields : List (String × Json)} {name : String} {expr : Expr}
      {position? : Option Position}
      (only : HasOnly ["name", "expr", "position"] fields)
      (hname : Required DenotesName (fields.lookup "name") name)
      (hexpr : Required DenotesExpr (fields.lookup "expr") expr)
      (hposition : Optionally DenotesPosition (fields.lookup "position") position?) :
    DenotesDeclaration (.obj fields) { name, expr, position? }

/-- The lists of a forest may be absent, but they are never null. -/
inductive DenotesForest : Json → Forest → Prop
  | obj {fields : List (String × Json)} {enums : List EnumDecl} {declarations : List Declaration}
      (only : HasOnly ["enums", "variables"] fields)
      (henums : Listed DenotesEnum (fields.lookup "enums") enums)
      (hdeclarations : Listed DenotesDeclaration (fields.lookup "variables") declarations) :
    DenotesForest (.obj fields) { enums, declarations }

/-! ## The checks of plain values -/

theorem integer_readsAs (d : Json) : ReadsAs integer DenotesInteger d := by
  intro n
  constructor
  · intro h
    cases d <;> simp [integer] at h
    subst h
    exact .int _
  · rintro ⟨⟩
    rfl

theorem string_readsAs (d : Json) : ReadsAs string DenotesString d := by
  intro s
  constructor
  · intro h
    cases d <;> simp [string] at h
    subst h
    exact .str _
  · rintro ⟨⟩
    rfl

theorem nonemptyString_readsAs (d : Json) : ReadsAs nonemptyString DenotesName d := by
  intro s
  constructor
  · intro h
    cases d <;> simp [nonemptyString] at h
    split at h
    · cases h
    · rename_i hwhole
      split at h
      · cases h
      · rename_i hne
        cases h
        exact .str ⟨hne, by simpa using hwhole⟩
  · rintro ⟨hname⟩
    simp [nonemptyString, hname.whole, hname.nonempty]

theorem accessName_readsAs (d : Json) : ReadsAs accessName DenotesAccess d := by
  intro access
  constructor
  · intro h
    cases d with
    | str s =>
      refine .str ?_
      unfold Access.ofName
      cases hs : Access.ofName? s <;> simp_all [accessName]
    | _ => simp [accessName] at h
  · rintro ⟨hname⟩
    rename_i s
    unfold Access.ofName at hname
    cases hs : Access.ofName? s <;> simp_all [accessName]

theorem unarySymbol_readsAs (d : Json) : ReadsAs unarySymbol DenotesUnary d := by
  intro op
  constructor
  · intro h
    cases d with
    | str s =>
      refine .str ?_
      unfold UnaryOp.ofSymbol
      cases hs : UnaryOp.ofSymbol? s <;> simp_all [unarySymbol]
    | _ => simp [unarySymbol] at h
  · rintro ⟨hsymbol⟩
    rename_i s
    unfold UnaryOp.ofSymbol at hsymbol
    cases hs : UnaryOp.ofSymbol? s <;> simp_all [unarySymbol]

theorem binarySymbol_readsAs (d : Json) : ReadsAs binarySymbol DenotesBinary d := by
  intro op
  constructor
  · intro h
    cases d with
    | str s =>
      refine .str ?_
      unfold BinaryOp.ofSymbol
      cases hs : BinaryOp.ofSymbol? s <;> simp_all [binarySymbol]
    | _ => simp [binarySymbol] at h
  · rintro ⟨hsymbol⟩
    rename_i s
    unfold BinaryOp.ofSymbol at hsymbol
    cases hs : BinaryOp.ofSymbol? s <;> simp_all [binarySymbol]

/-! ## The checks of plain fields -/

section

variable {key : String} {fields : List (String × Json)}

@[simp] theorem required_integer {n : Int} :
    required key integer fields = .valid n ↔ Required DenotesInteger (fields.lookup key) n :=
  required_eq_valid_iff fun d _ => integer_readsAs d

@[simp] theorem required_string {s : String} :
    required key string fields = .valid s ↔ Required DenotesString (fields.lookup key) s :=
  required_eq_valid_iff fun d _ => string_readsAs d

@[simp] theorem required_nonemptyString {s : String} :
    required key nonemptyString fields = .valid s ↔ Required DenotesName (fields.lookup key) s :=
  required_eq_valid_iff fun d _ => nonemptyString_readsAs d

@[simp] theorem required_unarySymbol {op : UnaryOp} :
    required key unarySymbol fields = .valid op ↔ Required DenotesUnary (fields.lookup key) op :=
  required_eq_valid_iff fun d _ => unarySymbol_readsAs d

@[simp] theorem required_binarySymbol {op : BinaryOp} :
    required key binarySymbol fields = .valid op ↔ Required DenotesBinary (fields.lookup key) op :=
  required_eq_valid_iff fun d _ => binarySymbol_readsAs d

@[simp] theorem optional_integer {n? : Option Int} :
    optional key integer fields = .valid n? ↔ Optionally DenotesInteger (fields.lookup key) n? :=
  optional_eq_valid_iff nofun fun d _ => integer_readsAs d

@[simp] theorem optional_string {s? : Option String} :
    optional key string fields = .valid s? ↔ Optionally DenotesString (fields.lookup key) s? :=
  optional_eq_valid_iff nofun fun d _ => string_readsAs d

@[simp] theorem optional_accessName {access? : Option Access} :
    optional key accessName fields = .valid access? ↔
      Optionally DenotesAccess (fields.lookup key) access? :=
  optional_eq_valid_iff nofun fun d _ => accessName_readsAs d

theorem position_readsAs (d : Json) : ReadsAs position DenotesPosition d := by
  intro p
  cases d with
  | obj fields =>
    simp only [position]
    rw [closed_eq_valid_iff (RecordForm.hasHalf_keys _)]
    simp only [Checked.both_eq_valid_iff, required_integer, optional_string]
    constructor
    · rintro ⟨only, _, file?, ⟨line, column, hline, hcolumn, rfl⟩, hfile, rfl⟩
      exact .obj only hline hcolumn hfile
    · rintro ⟨only, hline, hcolumn, hfile⟩
      exact ⟨only, _, _, ⟨_, _, hline, hcolumn, rfl⟩, hfile, rfl⟩
  | _ =>
    constructor
    · intro h
      simp [position] at h
    · rintro ⟨⟩

@[simp] theorem optional_position {position? : Option Position} :
    optional key position fields = .valid position? ↔
      Optionally DenotesPosition (fields.lookup key) position? :=
  optional_eq_valid_iff nofun fun d _ => position_readsAs d

end

/-! ## The check of an expression -/

theorem formOf_eq_valid_iff {fields : List (String × Json)} {form : ExprForm} :
    formOf fields = .valid form ↔ fields.lookup "type" = some (.str form.name) := by
  unfold formOf
  constructor
  · intro h
    split at h
    · simp at h
    · rename_i s hlookup
      split at h
      · rename_i named hnamed
        cases h
        rw [hlookup, ExprForm.name_of_ofName? hnamed]
      · simp at h
    · simp at h
  · intro h
    simp [h]

theorem required_cons_of_ne {α : Type} {key k : String} (h : k ≠ key) (read : Json → Checked α)
    (value : Json) (rest : List (String × Json)) :
    required key read ((k, value) :: rest) = required key read rest := by
  unfold required
  rw [List.lookup_cons, beq_false_of_ne h.symm]

theorem optional_cons_of_ne {α : Type} {key k : String} (h : k ≠ key) (read : Json → Checked α)
    (value : Json) (rest : List (String × Json)) :
    optional key read ((k, value) :: rest) = optional key read rest := by
  unfold optional
  rw [List.lookup_cons, beq_false_of_ne h.symm]

theorem exprField_eq_required (key : String) (fields : List (String × Json)) :
    exprField key fields = required key expression fields := by
  induction fields with
  | nil => rfl
  | cons field rest ih =>
    obtain ⟨k, value⟩ := field
    by_cases h : k = key
    · simp [exprField, required, h]
    · rw [exprField, if_neg h, ih, required_cons_of_ne h]

theorem optionalExprField_eq_optional (key : String) (fields : List (String × Json)) :
    optionalExprField key fields = optional key expression fields := by
  induction fields with
  | nil => rfl
  | cons field rest ih =>
    obtain ⟨k, value⟩ := field
    by_cases h : k = key
    · cases value <;> simp [optionalExprField, optional, h]
    · have hrest : optionalExprField key ((k, value) :: rest) = optionalExprField key rest := by
        cases value <;> simp [optionalExprField, h]
      rw [hrest, ih, optional_cons_of_ne h]

theorem expressions_eq_map (items : List Json) : expressions items = items.map expression := by
  induction items with
  | nil => rfl
  | cons item rest ih => simp [expressions, ih]

theorem membersField_eq_required (fields : List (String × Json)) :
    membersField fields = required "members" (listOf expression) fields := by
  induction fields with
  | nil => rfl
  | cons field rest ih =>
    obtain ⟨k, value⟩ := field
    by_cases h : k = "members"
    · cases value <;> simp [membersField, required, listOf, expressions_eq_map, h]
    · have hrest : membersField ((k, value) :: rest) = membersField rest := by
        cases value <;> simp [membersField, h]
      rw [hrest, ih, required_cons_of_ne h]

theorem weightedMembers_eq_map (items : List Json) :
    weightedMembers items = items.map weightedMember := by
  induction items with
  | nil => rfl
  | cons item rest ih => simp [weightedMembers, ih]

theorem weightedField_eq_required (fields : List (String × Json)) :
    weightedField fields = required "members" (listOf weightedMember) fields := by
  induction fields with
  | nil => rfl
  | cons field rest ih =>
    obtain ⟨k, value⟩ := field
    by_cases h : k = "members"
    · cases value <;> simp [weightedField, required, listOf, weightedMembers_eq_map, h]
    · have hrest : weightedField ((k, value) :: rest) = weightedField rest := by
        cases value <;> simp [weightedField, h]
      rw [hrest, ih, required_cons_of_ne h]

/-- The outcome of the keys that belong to a form. -/
def formFields (fields : List (String × Json)) : ExprForm → Checked Expr
  | .literal => (required "value" integer fields).map .literal
  | .enumItem => (required "name" string fields).both .item (required "value" integer fields)
  | .identifier => reference fields
  | .range => (required "min" expression fields).both .range (required "max" expression fields)
  | .pattern => (required "members" (listOf expression) fields).map .pattern
  | .sequence =>
    ((required "first" expression fields).both (fun first last => (first, last))
      (required "last" expression fields)).both
        (fun (first, last) increment? => .sequence first last (increment?.getD (.literal 1)))
        (optional "increment" expression fields)
  | .sample => (required "members" (listOf expression) fields).map .sample
  | .pool => (required "members" (listOf expression) fields).map .pool
  | .weightedSample => (required "members" (listOf weightedMember) fields).map .weightedSample
  | .weightedPool => (required "members" (listOf weightedMember) fields).map .weightedPool
  | .unary => (required "op" unarySymbol fields).both .unary (required "operand" expression fields)
  | .binary =>
    ((required "op" binarySymbol fields).both (fun op left => (op, left))
      (required "left" expression fields)).both (fun (op, left) right => .binary op left right)
        (required "right" expression fields)

theorem expression_obj {fields : List (String × Json)} {form : ExprForm}
    (h : formOf fields = .valid form) :
    expression (.obj fields) = closed ("type" :: form.keys) fields (formFields fields form) := by
  rw [expression, h]
  cases form <;>
    simp [formFields, exprField_eq_required, optionalExprField_eq_optional,
      membersField_eq_required, weightedField_eq_required]

theorem expression_obj_eq_valid_iff {fields : List (String × Json)} {e : Expr} :
    expression (.obj fields) = .valid e ↔
      ∃ form : ExprForm, IsObject form.name form.keys fields ∧
        formFields fields form = .valid e := by
  constructor
  · intro h
    cases hform : formOf fields with
    | invalid first others =>
      rw [expression, hform] at h
      cases h
    | valid form =>
      rw [expression_obj hform, closed_eq_valid_iff form.hasHalf_keys] at h
      exact ⟨form, ⟨formOf_eq_valid_iff.mp hform, h.1⟩, h.2⟩
  · rintro ⟨form, hobject, h⟩
    rw [expression_obj (formOf_eq_valid_iff.mpr hobject.tag), closed_eq_valid_iff form.hasHalf_keys]
    exact ⟨hobject.only, h⟩

/-- An object denotes an expression by the keys of one form. -/
theorem denotesExpr_obj_iff {fields : List (String × Json)} {e : Expr}
    (hexpr : ∀ key value, fields.lookup key = some value → ReadsAs expression DenotesExpr value)
    (hmembers : ∀ value, fields.lookup "members" = some value →
      ReadsAs (listOf expression) (Elementwise DenotesExpr) value)
    (hweighted : ∀ value, fields.lookup "members" = some value →
      ReadsAs (listOf weightedMember) (Elementwise DenotesWeighted) value) :
    DenotesExpr (.obj fields) e ↔
      ∃ form : ExprForm, IsObject form.name form.keys fields ∧
        formFields fields form = .valid e := by
  have hone (key : String) (e : Expr) := required_eq_valid_iff (a := e) (hexpr key)
  have hperhaps (key : String) (e? : Option Expr) :
      optional key expression fields = .valid e? ↔ Optionally DenotesExpr (fields.lookup key) e? :=
    optional_eq_valid_iff nofun (hexpr key)
  have hall (members : List Expr) := required_eq_valid_iff (a := members) hmembers
  have hweights (members : List (Int × Expr)) := required_eq_valid_iff (a := members) hweighted
  constructor
  · intro h
    cases h with
    | literal object => exact ⟨.literal, object, by simpa [formFields]⟩
    | item object => exact ⟨.enumItem, object, by simp [formFields, *]⟩
    | reference object => exact ⟨.identifier, object, by simp [formFields, reference, *]⟩
    | range object => exact ⟨.range, object, by simp [formFields, *]⟩
    | pattern object => exact ⟨.pattern, object, by simp [formFields, *]⟩
    | sequence object hfirst hlast hincrement =>
      refine ⟨.sequence, object, ?_⟩
      rw [formFields, (hone _ _).mpr hfirst, (hone _ _).mpr hlast, (hperhaps _ _).mpr hincrement]
      rfl
    | sample object => exact ⟨.sample, object, by simp [formFields, *]⟩
    | pool object => exact ⟨.pool, object, by simp [formFields, *]⟩
    | weightedSample object => exact ⟨.weightedSample, object, by simp [formFields, *]⟩
    | weightedPool object => exact ⟨.weightedPool, object, by simp [formFields, *]⟩
    | unary object hop hoperand =>
      refine ⟨.unary, object, ?_⟩
      rw [formFields, required_unarySymbol.mpr hop, (hone _ _).mpr hoperand]
      rfl
    | binary object => exact ⟨.binary, object, by simp [formFields, *]⟩
  · rintro ⟨form, object, h⟩
    cases form <;>
      simp only [formFields, reference, Checked.map_eq_valid_iff, Checked.both_eq_valid_iff,
        required_integer, required_string, required_nonemptyString, required_unarySymbol,
        required_binarySymbol, optional_accessName, optional_position, hone, hperhaps, hall,
        hweights] at h
    case literal =>
      obtain ⟨value, hvalue, rfl⟩ := h
      exact .literal object hvalue
    case enumItem =>
      obtain ⟨name, value, hname, hvalue, rfl⟩ := h
      exact .item object hname hvalue
    case identifier =>
      obtain ⟨_, position?, ⟨path, access?, hpath, haccess, rfl⟩, hposition, rfl⟩ := h
      exact .reference object hpath haccess hposition
    case range =>
      obtain ⟨min, max, hmin, hmax, rfl⟩ := h
      exact .range object hmin hmax
    case pattern =>
      obtain ⟨members, hmembers, rfl⟩ := h
      exact .pattern object hmembers
    case sequence =>
      obtain ⟨_, increment?, ⟨first, last, hfirst, hlast, rfl⟩, hincrement, rfl⟩ := h
      exact .sequence object hfirst hlast hincrement
    case sample =>
      obtain ⟨members, hmembers, rfl⟩ := h
      exact .sample object hmembers
    case pool =>
      obtain ⟨members, hmembers, rfl⟩ := h
      exact .pool object hmembers
    case weightedSample =>
      obtain ⟨members, hmembers, rfl⟩ := h
      exact .weightedSample object hmembers
    case weightedPool =>
      obtain ⟨members, hmembers, rfl⟩ := h
      exact .weightedPool object hmembers
    case unary =>
      obtain ⟨op, operand, hop, hoperand, rfl⟩ := h
      exact .unary object hop hoperand
    case binary =>
      obtain ⟨_, right, ⟨op, left, hop, hleft, rfl⟩, hright, rfl⟩ := h
      exact .binary object hop hleft hright

theorem sizeOf_lt_of_lookup {fields : List (String × Json)} {key : String} {value : Json}
    (h : fields.lookup key = some value) : sizeOf value < sizeOf (Json.obj fields) := by
  obtain ⟨before, after, rfl, -⟩ := List.lookup_eq_some_iff.mp h
  have hmem : (key, value) ∈ before ++ (key, value) :: after := by simp
  have hfield := List.sizeOf_lt_of_mem hmem
  simp at hfield ⊢
  omega

theorem weightedMember_readsAs {d : Json}
    (ih : ∀ part, sizeOf part < sizeOf d → ReadsAs expression DenotesExpr part) :
    ReadsAs weightedMember DenotesWeighted d := by
  rintro ⟨weight, e⟩
  constructor
  · intro h
    unfold weightedMember at h
    split at h
    · rename_i w expr
      simp only [Checked.both_eq_valid_iff, Checked.under_eq_valid_iff] at h
      obtain ⟨weight, e, hweight, hexpr, h⟩ := h
      cases h
      refine .pair ((integer_readsAs w _).mp hweight) ((ih expr ?_ _).mp hexpr)
      simp
      omega
    · simp at h
    · rename_i fields
      rw [closed_eq_valid_iff (RecordForm.hasHalf_keys _)] at h
      simp only [Checked.both_eq_valid_iff, exprField_eq_required, required_integer] at h
      obtain ⟨only, weight, e, hweight, hexpr, h⟩ := h
      cases h
      refine .obj only hweight ((required_eq_valid_iff fun part hpart => ?_).mp hexpr)
      exact ih part (sizeOf_lt_of_lookup hpart)
    · simp at h
  · intro h
    cases h with
    | @pair w d _ _ hweight hexpr =>
      have hd : sizeOf d < sizeOf (Json.arr [w, d]) := by
        simp
        omega
      simp only [weightedMember, Checked.both_eq_valid_iff, Checked.under_eq_valid_iff]
      exact ⟨_, _, (integer_readsAs w _).mpr hweight, (ih d hd _).mpr hexpr, rfl⟩
    | obj only hweight hexpr =>
      simp only [weightedMember]
      rw [closed_eq_valid_iff (RecordForm.hasHalf_keys _)]
      simp only [Checked.both_eq_valid_iff, exprField_eq_required, required_integer]
      refine ⟨only, _, _, hweight, (required_eq_valid_iff fun part hpart => ?_).mpr hexpr, rfl⟩
      exact ih part (sizeOf_lt_of_lookup hpart)

theorem expression_readsAs (d : Json) : ReadsAs expression DenotesExpr d := by
  -- The induction is on the size of the value: every part of it is smaller.
  refine (measure (sizeOf : Json → Nat)).wf.induction d ?_
  intro d ih e
  replace ih (part : Json) (hpart : sizeOf part < sizeOf d) : ReadsAs expression DenotesExpr part :=
    ih part hpart
  cases d with
  | int n =>
    constructor
    · intro h
      cases h
      exact .int n
    · rintro ⟨⟩
      rfl
  | str s =>
    simp only [expression, shortReference, Checked.map_eq_valid_iff, Checked.under_eq_valid_iff]
    constructor
    · rintro ⟨path, hpath, rfl⟩
      obtain ⟨hname⟩ := (nonemptyString_readsAs _ _).mp hpath
      exact .str hname
    · rintro ⟨⟩
      exact ⟨s, (nonemptyString_readsAs _ _).mpr (.str ‹_›), rfl⟩
  | obj fields =>
    have hitem {items : List Json} (hitems : fields.lookup "members" = some (.arr items))
        {item part : Json} (hmem : item ∈ items) (hpart : sizeOf part ≤ sizeOf item) :
        ReadsAs expression DenotesExpr part := by
      have hlist := sizeOf_lt_of_lookup hitems
      have hone := List.sizeOf_lt_of_mem hmem
      refine ih part ?_
      simp only [Json.arr.sizeOf_spec] at hlist
      omega
    rw [expression_obj_eq_valid_iff]
    refine (denotesExpr_obj_iff ?_ ?_ ?_).symm
    · intro key value hlookup
      exact ih value (sizeOf_lt_of_lookup hlookup)
    · rintro value hlookup
      refine listOf_readsAs ?_
      rintro items rfl item hmem
      exact hitem hlookup hmem (Nat.le_refl _)
    · rintro value hlookup
      refine listOf_readsAs ?_
      rintro items rfl item hmem
      refine weightedMember_readsAs fun part hpart => ?_
      exact hitem hlookup hmem (Nat.le_of_lt hpart)
  | _ =>
    constructor
    · intro h
      simp [expression] at h
    · rintro ⟨⟩

/-! ## The check of a forest -/

theorem enumItem_readsAs (d : Json) : ReadsAs enumItem DenotesEnumItem d := by
  intro item
  cases d with
  | str name =>
    constructor
    · intro h
      cases h
      exact .str name
    · rintro ⟨⟩
      rfl
  | obj fields =>
    simp only [enumItem]
    rw [closed_eq_valid_iff (RecordForm.hasHalf_keys _)]
    simp only [Checked.both_eq_valid_iff, required_string, optional_integer]
    constructor
    · rintro ⟨only, name, value?, hname, hvalue, rfl⟩
      exact .obj only hname hvalue
    · rintro ⟨⟩
      exact ⟨‹_›, _, _, ‹_›, ‹_›, rfl⟩
  | _ =>
    constructor
    · intro h
      simp [enumItem] at h
    · rintro ⟨⟩

theorem enumDecl_readsAs (d : Json) : ReadsAs enumDecl DenotesEnum d := by
  intro decl
  cases d with
  | obj fields =>
    have hitems (items : List EnumItem) :
        required "items" (listOf enumItem) fields = .valid items ↔
          Required (Elementwise DenotesEnumItem) (fields.lookup "items") items :=
      required_eq_valid_iff fun _ _ => listOf_readsAs fun _ _ item _ => enumItem_readsAs item
    simp only [enumDecl]
    rw [closed_eq_valid_iff (RecordForm.hasHalf_keys _)]
    simp only [Checked.both_eq_valid_iff, required_string, hitems, optional_position]
    constructor
    · rintro ⟨only, _, position?, ⟨name, items, hname, hitems, rfl⟩, hposition, rfl⟩
      exact .obj only hname hitems hposition
    · rintro ⟨only, hname, hitems, hposition⟩
      exact ⟨only, _, _, ⟨_, _, hname, hitems, rfl⟩, hposition, rfl⟩
  | _ =>
    constructor
    · intro h
      simp [enumDecl] at h
    · rintro ⟨⟩

theorem declaration_readsAs (d : Json) : ReadsAs declaration DenotesDeclaration d := by
  intro decl
  cases d with
  | obj fields =>
    have hexpr (e : Expr) : required "expr" expression fields = .valid e ↔
        Required DenotesExpr (fields.lookup "expr") e :=
      required_eq_valid_iff fun d _ => expression_readsAs d
    simp only [declaration]
    rw [closed_eq_valid_iff (RecordForm.hasHalf_keys _)]
    simp only [Checked.both_eq_valid_iff, required_nonemptyString, hexpr, optional_position]
    constructor
    · rintro ⟨only, _, position?, ⟨name, expr, hname, hexpr, rfl⟩, hposition, rfl⟩
      exact .obj only hname hexpr hposition
    · rintro ⟨only, hname, hexpr, hposition⟩
      exact ⟨only, _, _, ⟨_, _, hname, hexpr, rfl⟩, hposition, rfl⟩
  | _ =>
    constructor
    · intro h
      simp [declaration] at h
    · rintro ⟨⟩

theorem forest_readsAs (d : Json) : ReadsAs forest DenotesForest d := by
  intro f
  cases d with
  | obj fields =>
    have henums (enums : List EnumDecl) : listField "enums" enumDecl fields = .valid enums ↔
        Listed DenotesEnum (fields.lookup "enums") enums :=
      listField_eq_valid_iff fun _ _ => listOf_readsAs fun _ _ d _ => enumDecl_readsAs d
    have hdeclarations (ds : List Declaration) :
        listField "variables" declaration fields = .valid ds ↔
          Listed DenotesDeclaration (fields.lookup "variables") ds :=
      listField_eq_valid_iff fun _ _ => listOf_readsAs fun _ _ d _ => declaration_readsAs d
    simp only [forest]
    rw [closed_eq_valid_iff (RecordForm.hasHalf_keys _)]
    simp only [Checked.both_eq_valid_iff, henums, hdeclarations]
    constructor
    · rintro ⟨only, enums, declarations, henums, hdeclarations, rfl⟩
      exact .obj only henums hdeclarations
    · rintro ⟨only, henums, hdeclarations⟩
      exact ⟨only, _, _, henums, hdeclarations, rfl⟩
  | _ =>
    constructor
    · intro h
      simp [forest] at h
    · rintro ⟨⟩

/-! ## Loading -/

theorem outcome_eq_ok_iff {α : Type} {start : String} {checked : Checked α} {a : α} :
    outcome start checked = .ok a ↔ checked = .valid a := by
  cases checked <;> simp [outcome]

theorem decodeExpr_eq_ok_iff {start : String} {d : Json} {e : Expr} :
    decodeExpr start d = .ok e ↔ DenotesExpr d e := by
  rw [decodeExpr, outcome_eq_ok_iff]
  exact expression_readsAs d e

theorem decodeForest_eq_ok_iff {d : Json} {f : Forest} :
    decodeForest d = .ok f ↔ DenotesForest d f := by
  rw [decodeForest, outcome_eq_ok_iff]
  exact forest_readsAs d f

theorem decodeExpr_eq_rejected_iff {start : String} {d : Json} :
    (∃ first others, decodeExpr start d = .error (.rejected start first others)) ↔
      ∀ e, ¬ DenotesExpr d e := by
  have hok (e : Expr) : decodeExpr start d = .ok e ↔ DenotesExpr d e := decodeExpr_eq_ok_iff
  simp only [← hok]
  unfold decodeExpr
  cases expression d <;> simp [outcome]

theorem decodeForest_eq_rejected_iff {d : Json} :
    (∃ first others, decodeForest d = .error (.rejected "" first others)) ↔
      ∀ f, ¬ DenotesForest d f := by
  simp only [← decodeForest_eq_ok_iff]
  unfold decodeForest
  cases forest d <;> simp [outcome]

/-- The decoder accepts its format, and what it does not accept it refuses with a format error at
the place where the document stands. -/
theorem decode_agrees (start : String) (d : Json) :
    ((∀ e, decodeExpr start d = .ok e ↔ DenotesExpr d e) ∧
      ((∃ first others, decodeExpr start d = .error (.rejected start first others)) ↔
        ∀ e, ¬ DenotesExpr d e)) ∧
    ((∀ f, decodeForest d = .ok f ↔ DenotesForest d f) ∧
      ((∃ first others, decodeForest d = .error (.rejected "" first others)) ↔
        ∀ f, ¬ DenotesForest d f)) :=
  ⟨⟨fun _ => decodeExpr_eq_ok_iff, decodeExpr_eq_rejected_iff⟩,
    ⟨fun _ => decodeForest_eq_ok_iff, decodeForest_eq_rejected_iff⟩⟩

/-- The lists of a forest may not be null, and a string may be no name though it is not empty. -/
theorem decode_refuses :
    (∀ f, decodeForest (.obj [("enums", .null)]) ≠ .ok f) ∧
      Text.ofPoints [.half 0] ≠ "" ∧
      ∀ e, decodeExpr "expr" (.str (Text.ofPoints [.half 0])) ≠ .ok e := by
  refine ⟨?_, by decide, ?_⟩
  · intro f hf
    obtain ⟨-, henums, -⟩ := decodeForest_eq_ok_iff.mp hf
    cases henums with
    | present hlist => cases hlist
  · intro e he
    have hhalf : Text.hasHalf (Text.ofPoints [.half 0]) = true := by
      simp [Text.hasHalf, Text.Point.isHalf]
    cases decodeExpr_eq_ok_iff.mp he with
    | str hname =>
      rw [hname.whole] at hhalf
      cases hhalf

end Stimulus.Document
