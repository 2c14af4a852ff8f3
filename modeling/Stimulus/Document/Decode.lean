import Stimulus.Document.Issue

/-!
# Decoding documents

Expressions, positions, enumerations, variables and whole forests from document values. Two short
forms are taken wherever an expression is expected: an integer is a literal and a string a
reference. A weighted member is an object or a pair, and an item of an enumeration an object or a
name. All issues are collected: in an object those of its known keys come first, in their fixed
order, and then its unknown keys in the order of the document. A key with a lone surrogate spoils
its object: the only issue is then that of the object as a whole.
-/
namespace Stimulus.Document

open Checked

/-! ## Plain values -/

def integer : Json → Checked Int
  | .int n => .valid n
  | _ => refuse .notInteger

def string : Json → Checked String
  | .str s => .valid s
  | _ => refuse .notString

/-- A string that says something: it is not empty, and all of it is characters. -/
def nonemptyString : Json → Checked String
  | .str s =>
    if Text.hasHalf s then refuse .loneHalf
    else if s.isEmpty then refuse .emptyString
    else .valid s
  | _ => refuse .notString

def accessName : Json → Checked Access
  | .str s =>
    match Access.ofName? s with
    | some access => .valid access
    | none => refuse (if Text.hasHalf s then .loneHalf else .notAccess)
  | _ => refuse .notAccess

def unarySymbol : Json → Checked UnaryOp
  | .str s =>
    match UnaryOp.ofSymbol? s with
    | some op => .valid op
    | none => refuse (.refused (.unknownUnary s))
  | _ => refuse .notString

def binarySymbol : Json → Checked BinaryOp
  | .str s =>
    match BinaryOp.ofSymbol? s with
    | some op => .valid op
    | none => refuse (.refused (.unknownBinary s))
  | _ => refuse .notString

/-! ## Fields -/

/-- The issue of a key that must be there. -/
def absent {α : Type} (key : String) : Checked α := (refuse .missing).under (.key key)

/-- A field that must be there. -/
def required {α : Type} (key : String) (read : Json → Checked α)
    (fields : List (String × Json)) : Checked α :=
  match fields.lookup key with
  | none => absent key
  | some value => (read value).under (.key key)

/-- A field that may be absent or null. -/
def optional {α : Type} (key : String) (read : Json → Checked α)
    (fields : List (String × Json)) : Checked (Option α) :=
  match fields.lookup key with
  | none | some .null => .valid none
  | some value => ((read value).map some).under (.key key)

/-- The issues of the keys that an object must not have. -/
def unknownKeys (known : List String) (fields : List (String × Json)) : List Issue :=
  (fields.filter fun (key, _) => !known.contains key).map fun (key, _) =>
    ⟨[.key key], .unknownKey⟩

/-- The outcome of an object: that of its known keys, and behind it the issues of its unknown
ones. -/
def closed {α : Type} (known : List String) (fields : List (String × Json))
    (checked : Checked α) : Checked α :=
  if fields.any fun (key, _) => Text.hasHalf key then refuse .loneHalf
  else checked.followedBy (unknownKeys known fields)

/-- The outcomes of a list's elements, each behind its index. -/
def collect {α : Type} (start : Nat) : List (Checked α) → Checked (List α)
  | [] => .valid []
  | checked :: rest =>
    (checked.under (.index start)).both List.cons (collect (start + 1) rest)

/-! ## Positions -/

def position : Json → Checked Position
  | .obj fields =>
    ((required "line" integer fields).both (fun line column => (line, column))
      (required "column" integer fields)).both
        (fun (line, column) file? => ({ line, column, file? } : Position))
        (optional "file" string fields)
      |> closed RecordForm.position.keys fields
  | _ => refuse (.notRecord .position)

/-! ## Expressions -/

def reference (fields : List (String × Json)) : Checked Expr :=
  ((required "path" nonemptyString fields).both (fun path access? => (path, access?))
    (optional "method" accessName fields)).both
      (fun (path, access?) position? => Expr.reference { path, access?, position? })
      (optional "position" position fields)

/-- A reference written as a string. -/
def shortReference (s : String) : Checked Expr :=
  ((nonemptyString (.str s)).under (.key "path")).map fun path => .reference { path }

/-- The form that an object tells by its `type`. -/
def formOf (fields : List (String × Json)) : Checked ExprForm :=
  match fields.lookup "type" with
  | none => refuse (.refused .noType)
  | some (.str s) =>
    match ExprForm.ofName? s with
    | some form => .valid form
    | none => refuse (.refused (.unknownType (.str s)))
  | some value => refuse (.refused (.unknownType value))

mutual

def expression : Json → Checked Expr
  | .bool _ => refuse (.refused .boolean)
  | .int n => .valid (.literal n)
  | .str s => shortReference s
  | .obj fields =>
    match formOf fields with
    | .invalid first others => .invalid first others
    | .valid form =>
      let checked : Checked Expr := match form with
        | .literal => (required "value" integer fields).map .literal
        | .enumItem =>
          (required "name" string fields).both .item (required "value" integer fields)
        | .identifier => reference fields
        | .range => (exprField "min" fields).both .range (exprField "max" fields)
        | .pattern => (membersField fields).map .pattern
        | .sequence =>
          ((exprField "first" fields).both (fun first last => (first, last))
            (exprField "last" fields)).both
              (fun (first, last) increment? =>
                .sequence first last (increment?.getD (.literal 1)))
              (optionalExprField "increment" fields)
        | .sample => (membersField fields).map .sample
        | .pool => (membersField fields).map .pool
        | .weightedSample => (weightedField fields).map .weightedSample
        | .weightedPool => (weightedField fields).map .weightedPool
        | .unary =>
          (required "op" unarySymbol fields).both .unary (exprField "operand" fields)
        | .binary =>
          ((required "op" binarySymbol fields).both (fun op left => (op, left))
            (exprField "left" fields)).both (fun (op, left) right => .binary op left right)
              (exprField "right" fields)
      closed ("type" :: form.keys) fields checked
  | .null => refuse (.refused (.noExpression .null))
  | .float x => refuse (.refused (.noExpression (.float x)))
  | .arr items => refuse (.refused (.noExpression (.arr items)))

/-- The expression of a field that must be there. -/
def exprField (key : String) : List (String × Json) → Checked Expr
  | [] => absent key
  | (k, value) :: rest =>
    if k = key then (expression value).under (.key key) else exprField key rest

/-- The expression of a field that may be absent or null. -/
def optionalExprField (key : String) : List (String × Json) → Checked (Option Expr)
  | [] => .valid none
  | (k, value) :: rest =>
    if k = key then
      match value with
      | .null => .valid none
      | value => ((expression value).map some).under (.key key)
    else optionalExprField key rest

/-- The expressions of the field `members`. -/
def membersField : List (String × Json) → Checked (List Expr)
  | [] => absent "members"
  | (k, value) :: rest =>
    if k = "members" then
      match value with
      | .arr items => (collect 0 (expressions items)).under (.key "members")
      | _ => (refuse .notList).under (.key "members")
    else membersField rest

def expressions : List Json → List (Checked Expr)
  | [] => []
  | item :: rest => expression item :: expressions rest

/-- The weighted expressions of the field `members`. -/
def weightedField : List (String × Json) → Checked (List (Int × Expr))
  | [] => absent "members"
  | (k, value) :: rest =>
    if k = "members" then
      match value with
      | .arr items => (collect 0 (weightedMembers items)).under (.key "members")
      | _ => (refuse .notList).under (.key "members")
    else weightedField rest

def weightedMembers : List Json → List (Checked (Int × Expr))
  | [] => []
  | item :: rest => weightedMember item :: weightedMembers rest

/-- A weight and an expression, as an object or as a pair. -/
def weightedMember : Json → Checked (Int × Expr)
  | .arr [weight, expr] =>
    ((integer weight).under (.key "weight")).both Prod.mk ((expression expr).under (.key "expr"))
  | .arr _ => refuse (.refused .noPair)
  | .obj fields =>
    closed RecordForm.weighted.keys fields
      ((required "weight" integer fields).both Prod.mk (exprField "expr" fields))
  | _ => refuse (.notRecord .weighted)

end

/-! ## Forests -/

/-- A list, each element read by `read`. -/
def listOf {α : Type} (read : Json → Checked α) : Json → Checked (List α)
  | .arr items => collect 0 (items.map read)
  | _ => refuse .notList

/-- An item of an enumeration, as an object or as its name. -/
def enumItem : Json → Checked EnumItem
  | .str name => .valid { name }
  | .obj fields =>
    (required "name" string fields).both (fun name value? => ({ name, value? } : EnumItem))
      (optional "value" integer fields)
      |> closed RecordForm.enumMember.keys fields
  | _ => refuse (.notRecord .enumMember)

def enumDecl : Json → Checked EnumDecl
  | .obj fields =>
    ((required "name" string fields).both (fun name items => (name, items))
      (required "items" (listOf enumItem) fields)).both
        (fun (name, items) position? => ({ name, items, position? } : EnumDecl))
        (optional "position" position fields)
      |> closed RecordForm.enum.keys fields
  | _ => refuse (.notRecord .enum)

def declaration : Json → Checked Declaration
  | .obj fields =>
    ((required "name" nonemptyString fields).both (fun name expr => (name, expr))
      (required "expr" expression fields)).both
        (fun (name, expr) position? => ({ name, expr, position? } : Declaration))
        (optional "position" position fields)
      |> closed RecordForm.declaration.keys fields
  | _ => refuse (.notRecord .declaration)

/-- A list field that is empty where it is absent. -/
def listField {α : Type} (key : String) (read : Json → Checked α)
    (fields : List (String × Json)) : Checked (List α) :=
  match fields.lookup key with
  | none => .valid []
  | some value => (listOf read value).under (.key key)

def forest : Json → Checked Forest
  | .obj fields =>
    (listField "enums" enumDecl fields).both
      (fun enums declarations => ({ enums, declarations } : Forest))
      (listField "variables" declaration fields)
      |> closed RecordForm.forest.keys fields
  | _ => refuse (.notRecord .forest)

end Stimulus.Document
