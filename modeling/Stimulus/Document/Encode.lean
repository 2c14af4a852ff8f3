import Stimulus.Document.Form

/-!
# Encoding documents

The document of an expression or a forest in its full form: every expression is an object that
tells its form, and optional parts that are absent are left out. An empty file name of a position
is left out, and positions of enumerations are not written.
-/
namespace Stimulus.Document

/-- An expression object. -/
def object (form : ExprForm) (fields : List (String × Json)) : Json :=
  .obj (("type", .str form.name) :: fields)

/-- A field for a part that may be absent. -/
def optionalField {α : Type} (key : String) (write : α → Json) (part? : Option α) :
    List (String × Json) :=
  part?.toList.map fun part => (key, write part)

def ofPosition (p : Position) : Json :=
  .obj ([("line", .int p.line), ("column", .int p.column)] ++
    optionalField "file" .str (p.file?.filter (!·.isEmpty)))

def ofIdentifier (ref : Identifier) : Json :=
  object .identifier ([("path", .str ref.path)] ++
    optionalField "method" (fun access => .str access.name) ref.access? ++
    optionalField "position" ofPosition ref.position?)

mutual

def ofExpr : Expr → Json
  | .literal value => object .literal [("value", .int value)]
  | .item name value => object .enumItem [("name", .str name), ("value", .int value)]
  | .reference ref => ofIdentifier ref
  | .range min max => object .range [("min", ofExpr min), ("max", ofExpr max)]
  | .pattern members => object .pattern [("members", .arr (ofMembers members))]
  | .sequence first last increment =>
    object .sequence
      [("first", ofExpr first), ("last", ofExpr last), ("increment", ofExpr increment)]
  | .sample members => object .sample [("members", .arr (ofMembers members))]
  | .pool members => object .pool [("members", .arr (ofMembers members))]
  | .weightedSample members => object .weightedSample [("members", .arr (ofWeighted members))]
  | .weightedPool members => object .weightedPool [("members", .arr (ofWeighted members))]
  | .unary op operand => object .unary [("op", .str op.symbol), ("operand", ofExpr operand)]
  | .binary op left right =>
    object .binary [("op", .str op.symbol), ("left", ofExpr left), ("right", ofExpr right)]

def ofMembers : List Expr → List Json
  | [] => []
  | e :: rest => ofExpr e :: ofMembers rest

def ofWeighted : List (Int × Expr) → List Json
  | [] => []
  | (w, e) :: rest => .obj [("weight", .int w), ("expr", ofExpr e)] :: ofWeighted rest

end

def ofEnumItem (item : EnumItem) : Json :=
  .obj (("name", .str item.name) :: optionalField "value" .int item.value?)

def ofEnumDecl (d : EnumDecl) : Json :=
  .obj [("name", .str d.name), ("items", .arr (d.items.map ofEnumItem))]

def ofDeclaration (d : Declaration) : Json :=
  .obj ([("name", .str d.name), ("expr", ofExpr d.expr)] ++
    optionalField "position" ofPosition d.position?)

def ofForest (f : Forest) : Json :=
  .obj [("enums", .arr (f.enums.map ofEnumDecl)),
    ("variables", .arr (f.declarations.map ofDeclaration))]

end Stimulus.Document
