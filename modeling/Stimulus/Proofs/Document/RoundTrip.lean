import Stimulus.Document.Encode
import Stimulus.Proofs.Document.Parts

/-!
# The way to a document and back

What the document of a decoded expression or forest denotes: the same again, but for the positions
that a document does not keep. An empty file name is not kept, and no position of an enumeration is.
So encoding once more gives the same document.
-/
namespace Stimulus

/-! ## What a document keeps -/

/-- A position as a document keeps it: without an empty file name. -/
def Position.stored (p : Position) : Position := { p with file? := p.file?.filter (!·.isEmpty) }

/-- A reference as a document keeps it. -/
def Identifier.stored (ref : Identifier) : Identifier :=
  { ref with position? := ref.position?.map Position.stored }

namespace Expr

mutual

/-- The expression with every reference replaced. -/
def mapReferences (f : Identifier → Identifier) : Expr → Expr
  | .literal value => .literal value
  | .item name value => .item name value
  | .reference ref => .reference (f ref)
  | .range min max => .range (min.mapReferences f) (max.mapReferences f)
  | .pattern members => .pattern (mapMembers f members)
  | .sequence first last increment =>
    .sequence (first.mapReferences f) (last.mapReferences f) (increment.mapReferences f)
  | .sample members => .sample (mapMembers f members)
  | .pool members => .pool (mapMembers f members)
  | .weightedSample members => .weightedSample (mapWeighted f members)
  | .weightedPool members => .weightedPool (mapWeighted f members)
  | .unary op operand => .unary op (operand.mapReferences f)
  | .binary op left right => .binary op (left.mapReferences f) (right.mapReferences f)

def mapMembers (f : Identifier → Identifier) : List Expr → List Expr
  | [] => []
  | e :: rest => e.mapReferences f :: mapMembers f rest

def mapWeighted (f : Identifier → Identifier) : List (Int × Expr) → List (Int × Expr)
  | [] => []
  | (w, e) :: rest => (w, e.mapReferences f) :: mapWeighted f rest

end

theorem mapMembers_eq_map (f : Identifier → Identifier) (members : List Expr) :
    mapMembers f members = members.map (mapReferences f) := by
  induction members with
  | nil => rfl
  | cons e rest ih => simp [mapMembers, ih]

theorem mapWeighted_eq_map (f : Identifier → Identifier) (members : List (Int × Expr)) :
    mapWeighted f members = members.map fun (w, e) => (w, e.mapReferences f) := by
  induction members with
  | nil => rfl
  | cons member rest ih => simp [mapWeighted, ih]

theorem sameMembers_mapMembers {f : Identifier → Identifier} {members : List Expr}
    (h : ∀ e ∈ members, (e.mapReferences f).same e) :
    sameMembers (mapMembers f members) members := by
  induction members with
  | nil => rfl
  | cons e rest ih => simp_all [mapMembers, sameMembers]

theorem sameWeighted_mapWeighted {f : Identifier → Identifier} {members : List (Int × Expr)}
    (h : ∀ e ∈ members, (e.2.mapReferences f).same e.2) :
    sameWeighted (mapWeighted f members) members := by
  induction members with
  | nil => rfl
  | cons member rest ih => simp_all [mapWeighted, sameWeighted]

/-- Only positions are changed where every reference is changed in its position only. -/
theorem mapReferences_same {f : Identifier → Identifier} (hf : ∀ ref, (f ref).same ref) (e : Expr) :
    (e.mapReferences f).same e := by
  induction e with
  | literal | item => simp [mapReferences, same]
  | reference ref => exact hf ref
  | range min max ihMin ihMax => simp [mapReferences, same, ihMin, ihMax]
  | sequence first last increment ihFirst ihLast ihIncrement =>
    simp [mapReferences, same, ihFirst, ihLast, ihIncrement]
  | pattern members ih | sample members ih | pool members ih =>
    simpa only [mapReferences, same] using sameMembers_mapMembers ih
  | weightedSample members ih | weightedPool members ih =>
    simpa only [mapReferences, same] using sameWeighted_mapWeighted ih
  | unary op operand ih => simp [mapReferences, same, ih]
  | binary op left right ihLeft ihRight => simp [mapReferences, same, ihLeft, ihRight]

/-- An expression as a document keeps it. -/
def stored (e : Expr) : Expr := e.mapReferences Identifier.stored

theorem stored_same (e : Expr) : e.stored.same e := by
  refine e.mapReferences_same fun ref => ?_
  simp [Identifier.stored, Identifier.same]

end Expr

/-- An enumeration as a document keeps it. -/
def EnumDecl.stored (d : EnumDecl) : EnumDecl := { d with position? := none }

def Declaration.stored (d : Declaration) : Declaration :=
  { name := d.name, expr := d.expr.stored, position? := d.position?.map Position.stored }

def Forest.stored (f : Forest) : Forest :=
  { enums := f.enums.map EnumDecl.stored, declarations := f.declarations.map Declaration.stored }

theorem Forest.stored_same (f : Forest) : f.stored.same f := by
  have henum (d : EnumDecl) : d.stored.same d := by simp [EnumDecl.stored, EnumDecl.same]
  have hdeclaration (d : Declaration) : d.stored.same d := by
    simp [Declaration.stored, Declaration.same, d.expr.stored_same]
  have hzip {α : Type} (g : α → α) (l : List α) : (l.map g).zip l = l.map fun a => (g a, a) := by
    induction l with
    | nil => rfl
    | cons a rest ih => simp [ih]
  simp [Forest.same, Forest.stored, hzip, henum, hdeclaration]

namespace Document

/-! ## Encoding what is kept -/

theorem ofPosition_stored (p : Position) : ofPosition p.stored = ofPosition p := by
  simp [ofPosition, Position.stored, Option.filter_filter]

theorem optionalField_map {α : Type} {key : String} {write : α → Json} {keep : α → α}
    (h : ∀ part, write (keep part) = write part) (part? : Option α) :
    optionalField key write (part?.map keep) = optionalField key write part? := by
  cases part? <;> simp [optionalField, h]

theorem ofIdentifier_stored (ref : Identifier) : ofIdentifier ref.stored = ofIdentifier ref := by
  simp only [ofIdentifier, Identifier.stored, optionalField_map ofPosition_stored]

theorem ofMembers_eq_map (members : List Expr) : ofMembers members = members.map ofExpr := by
  induction members with
  | nil => rfl
  | cons e rest ih => simp [ofMembers, ih]

/-- A weighted member in its full form. -/
def ofWeightedMember (member : Int × Expr) : Json :=
  .obj [("weight", .int member.1), ("expr", ofExpr member.2)]

theorem ofWeighted_eq_map (members : List (Int × Expr)) :
    ofWeighted members = members.map ofWeightedMember := by
  induction members with
  | nil => rfl
  | cons member rest ih => simp [ofWeighted, ofWeightedMember, ih]

theorem ofMembers_mapMembers {f : Identifier → Identifier} {members : List Expr}
    (h : ∀ e ∈ members, ofExpr (e.mapReferences f) = ofExpr e) :
    ofMembers (Expr.mapMembers f members) = ofMembers members := by
  rw [ofMembers_eq_map, ofMembers_eq_map, Expr.mapMembers_eq_map, List.map_map]
  exact List.map_congr_left h

theorem ofWeighted_mapWeighted {f : Identifier → Identifier} {members : List (Int × Expr)}
    (h : ∀ e ∈ members, ofExpr (e.2.mapReferences f) = ofExpr e.2) :
    ofWeighted (Expr.mapWeighted f members) = ofWeighted members := by
  rw [ofWeighted_eq_map, ofWeighted_eq_map, Expr.mapWeighted_eq_map, List.map_map]
  refine List.map_congr_left fun member hmember => ?_
  simp [ofWeightedMember, h member hmember]

theorem ofExpr_stored (e : Expr) : ofExpr e.stored = ofExpr e := by
  unfold Expr.stored
  induction e with
  | literal | item => rfl
  | reference ref => exact ofIdentifier_stored ref
  | range min max ihMin ihMax => simp [Expr.mapReferences, ofExpr, ihMin, ihMax]
  | sequence first last increment ihFirst ihLast ihIncrement =>
    simp [Expr.mapReferences, ofExpr, ihFirst, ihLast, ihIncrement]
  | pattern members ih | sample members ih | pool members ih =>
    simp only [Expr.mapReferences, ofExpr, ofMembers_mapMembers ih]
  | weightedSample members ih | weightedPool members ih =>
    simp only [Expr.mapReferences, ofExpr, ofWeighted_mapWeighted ih]
  | unary op operand ih => simp [Expr.mapReferences, ofExpr, ih]
  | binary op left right ihLeft ihRight => simp [Expr.mapReferences, ofExpr, ihLeft, ihRight]

theorem ofDeclaration_stored (d : Declaration) : ofDeclaration d.stored = ofDeclaration d := by
  simp only [ofDeclaration, Declaration.stored, ofExpr_stored, optionalField_map ofPosition_stored]

theorem ofForest_stored (f : Forest) : ofForest f.stored = ofForest f := by
  have henum (d : EnumDecl) : ofEnumDecl d.stored = ofEnumDecl d := rfl
  simp [ofForest, Forest.stored, Function.comp_def, henum, ofDeclaration_stored]

/-! ## Denoting what is kept -/

section

variable {α β : Type} {p : Json → α → Prop}

theorem Elementwise.map {write : β → Json} {keep : β → α} {values : List β}
    (h : ∀ b ∈ values, p (write b) (keep b)) :
    Elementwise p (.arr (values.map write)) (values.map keep) := by
  refine .arr ?_
  rw [List.forall₂_map_left_iff, List.forall₂_map_right_iff, List.forall₂_same]
  exact h

theorem Optionally.map {write : β → Json} {keep : β → α} (h : ∀ b, p (write b) (keep b))
    (part? : Option β) : Optionally p (part?.map write) (part?.map keep) := by
  cases part? with
  | none => exact .absent
  | some b => exact .present (h b)

theorem Optionally.map_self {write : α → Json} (h : ∀ a, p (write a) a) (part? : Option α) :
    Optionally p (part?.map write) part? := by
  have hmap : Optionally p (part?.map write) (part?.map id) := .map h part?
  rwa [Option.map_id_fun, id] at hmap

end

section

variable {α : Type} {key : String} {write : α → Json} {part? : Option α}

@[simp] theorem lookup_optionalField :
    (optionalField key write part?).lookup key = part?.map write := by
  cases part? <;> simp [optionalField]

theorem lookup_optionalField_of_ne {other : String} (h : other ≠ key) :
    (optionalField key write part?).lookup other = none := by
  cases part? <;> simp [optionalField, List.lookup_cons, beq_false_of_ne h]

theorem hasOnly_optionalField {keys : List String} (h : key ∈ keys) :
    HasOnly keys (optionalField key write part?) := by
  cases part? <;> simp [optionalField, HasOnly, h]

end

theorem HasOnly.cons {keys : List String} {field : String × Json} {fields : List (String × Json)}
    (hfield : field.1 ∈ keys) (h : HasOnly keys fields) : HasOnly keys (field :: fields) :=
  List.forall_mem_cons.mpr ⟨hfield, h⟩

theorem HasOnly.append {keys : List String} {fields others : List (String × Json)}
    (h : HasOnly keys fields) (hothers : HasOnly keys others) :
    HasOnly keys (fields ++ others) := by
  intro field hfield
  rcases List.mem_append.mp hfield with hfield | hfield
  · exact h field hfield
  · exact hothers field hfield

theorem ofPosition_denotes (p : Position) : DenotesPosition (ofPosition p) p.stored := by
  refine .obj (.append (by simp [HasOnly]) (hasOnly_optionalField (by simp))) ?_ ?_ ?_
  · simpa using .present (.int p.line)
  · simpa [List.lookup_cons] using .present (.int p.column)
  · have hfile := Optionally.map_self DenotesString.str (p.file?.filter (!·.isEmpty))
    simpa [List.lookup_append, List.lookup_cons, Position.stored] using hfile

theorem DenotesAccess.name (access : Access) : DenotesAccess (.str access.name) access :=
  .str (by simp [Access.ofName])

theorem DenotesUnary.symbol (op : UnaryOp) : DenotesUnary (.str op.symbol) op :=
  .str (by simp [UnaryOp.ofSymbol])

theorem DenotesBinary.symbol (op : BinaryOp) : DenotesBinary (.str op.symbol) op :=
  .str (by simp [BinaryOp.ofSymbol])

theorem ofIdentifier_denotes {ref : Identifier} (h : IsName ref.path) :
    DenotesExpr (ofIdentifier ref) (.reference ref.stored) := by
  have haccess := Optionally.map_self DenotesAccess.name ref.access?
  have hposition := Optionally.map ofPosition_denotes ref.position?
  refine .reference ⟨rfl, ?_⟩ ?_ ?_ ?_
  · refine .cons (by simp) (.append (.append (by simp [HasOnly]) ?_) ?_)
    · exact hasOnly_optionalField (by simp)
    · exact hasOnly_optionalField (by simp)
  · simpa [List.lookup_cons] using .present (.str h)
  · simpa [List.lookup_append, List.lookup_cons, lookup_optionalField_of_ne] using haccess
  · simpa [List.lookup_append, List.lookup_cons, lookup_optionalField_of_ne] using hposition

theorem DenotesExpr.isName {d : Json} {ref : Identifier} (h : DenotesExpr d (.reference ref)) :
    IsName ref.path := by
  cases h with
  | str hname => exact hname
  | reference _ hpath =>
    obtain ⟨_, ⟨hname⟩, -⟩ := hpath.byPart
    exact hname

theorem ofExpr_denotes {d : Json} {e : Expr} (h : DenotesExpr d e) :
    DenotesExpr (ofExpr e) e.stored := by
  induction e using Expr.induct_members generalizing d with
  | hexpr e ih =>
    have hmember (member : Expr) (hmem : member ∈ e.members) :
        DenotesExpr (ofExpr member) member.stored := by
      obtain rfl | ⟨_, hpart, -⟩ := h.byPart hmem
      · exact ih _ hmem (.int 1)
      · exact ih member hmem hpart
    have hlist (members : List Expr) (heq : members = e.members) :
        Elementwise DenotesExpr (.arr (ofMembers members)) (Expr.mapMembers .stored members) := by
      rw [ofMembers_eq_map, Expr.mapMembers_eq_map]
      exact .map fun member hmem => hmember member (heq ▸ hmem)
    have hweighted (members : List (Int × Expr)) (heq : members.map Prod.snd = e.members) :
        Elementwise DenotesWeighted (.arr (ofWeighted members))
          (Expr.mapWeighted .stored members) := by
      rw [ofWeighted_eq_map, Expr.mapWeighted_eq_map]
      refine .map fun member hmem => ?_
      have hexpr := hmember member.2 (heq ▸ List.mem_map_of_mem hmem)
      exact .obj (by simp [HasOnly]) (.present (.int member.1)) (.present hexpr)
    cases e with
    | literal value => exact .literal ⟨rfl, by simp [HasOnly]⟩ (.present (.int value))
    | item name value =>
      exact .item ⟨rfl, by simp [HasOnly]⟩ (.present (.str name)) (.present (.int value))
    | reference ref => exact ofIdentifier_denotes h.isName
    | range min max =>
      exact .range ⟨rfl, by simp [HasOnly]⟩ (.present (hmember min (by simp [Expr.members])))
        (.present (hmember max (by simp [Expr.members])))
    | pattern members =>
      exact .pattern ⟨rfl, by simp [HasOnly]⟩ (.present (hlist members rfl))
    | sequence first last increment =>
      have hincrement := hmember increment (by simp [Expr.members])
      exact @DenotesExpr.sequence _ _ _ (some increment.stored) ⟨rfl, by simp [HasOnly]⟩
        (.present (hmember first (by simp [Expr.members])))
        (.present (hmember last (by simp [Expr.members]))) (.present hincrement)
    | sample members =>
      exact .sample ⟨rfl, by simp [HasOnly]⟩ (.present (hlist members rfl))
    | pool members =>
      exact .pool ⟨rfl, by simp [HasOnly]⟩ (.present (hlist members rfl))
    | weightedSample members =>
      exact .weightedSample ⟨rfl, by simp [HasOnly]⟩ (.present (hweighted members rfl))
    | weightedPool members =>
      exact .weightedPool ⟨rfl, by simp [HasOnly]⟩ (.present (hweighted members rfl))
    | unary op operand =>
      exact .unary ⟨rfl, by simp [HasOnly]⟩ (.present (.symbol op))
        (.present (hmember operand (by simp [Expr.members])))
    | binary op left right =>
      exact .binary ⟨rfl, by simp [HasOnly]⟩ (.present (.symbol op))
        (.present (hmember left (by simp [Expr.members])))
        (.present (hmember right (by simp [Expr.members])))

theorem ofEnumItem_denotes (item : EnumItem) : DenotesEnumItem (ofEnumItem item) item := by
  refine .obj (.cons (by simp) ?_) (.present (.str item.name)) ?_
  · exact hasOnly_optionalField (by simp)
  · have hvalue := Optionally.map_self DenotesInteger.int item.value?
    simpa [List.lookup_cons] using hvalue

theorem ofEnumDecl_denotes (d : EnumDecl) : DenotesEnum (ofEnumDecl d) d.stored := by
  refine .obj (by simp [HasOnly]) (.present (.str d.name)) (.present ?_) .absent
  have hitems : Elementwise DenotesEnumItem (.arr (d.items.map ofEnumItem)) (d.items.map id) :=
    .map fun item _ => ofEnumItem_denotes item
  simpa using hitems

theorem ofDeclaration_denotes {doc : Json} {d : Declaration} (h : DenotesDeclaration doc d) :
    DenotesDeclaration (ofDeclaration d) d.stored := by
  cases h with
  | @obj _ _ _ position? _ hname hexpr _ =>
    obtain ⟨_, ⟨hname⟩, -⟩ := hname.byPart
    obtain ⟨_, hexpr, -⟩ := hexpr.byPart
    have hposition := Optionally.map ofPosition_denotes position?
    refine .obj (.append (by simp [HasOnly]) ?_) (.present (.str hname))
      (.present (ofExpr_denotes hexpr)) ?_
    · exact hasOnly_optionalField (by simp)
    · simpa [List.lookup_append, List.lookup_cons] using hposition

/-- The document of a decoded forest denotes what it keeps of the forest. -/
theorem ofForest_denotes {d : Json} {f : Forest} (h : DenotesForest d f) :
    DenotesForest (ofForest f) f.stored := by
  obtain ⟨_, _, hdeclarations⟩ := h
  refine .obj (by simp [HasOnly]) (.present ?_) (.present ?_)
  · exact .map fun d _ => ofEnumDecl_denotes d
  · refine .map fun decl hmem => ?_
    obtain ⟨_, hdecl, -⟩ := hdeclarations.byPart hmem
    exact ofDeclaration_denotes hdecl

/-! ## Decoding and encoding in turn -/

theorem decodeExpr_ofExpr {start : String} {d : Json} {e : Expr} (h : decodeExpr start d = .ok e)
    (start' : String) : decodeExpr start' (ofExpr e) = .ok e.stored :=
  decodeExpr_eq_ok_iff.mpr (ofExpr_denotes (decodeExpr_eq_ok_iff.mp h))

theorem decodeForest_ofForest {d : Json} {f : Forest} (h : decodeForest d = .ok f) :
    decodeForest (ofForest f) = .ok f.stored :=
  decodeForest_eq_ok_iff.mpr (ofForest_denotes (decodeForest_eq_ok_iff.mp h))

/-- What a document is decoded to is encoded to a document of its own, which is decoded to the same
but for the positions and is not changed by doing so once more. -/
theorem decode_encode (start start' : String) (d : Json) :
    (∀ e, decodeExpr start d = .ok e →
      ∃ e', decodeExpr start' (ofExpr e) = .ok e' ∧ e'.same e ∧ ofExpr e' = ofExpr e) ∧
    (∀ f, decodeForest d = .ok f →
      ∃ f', decodeForest (ofForest f) = .ok f' ∧ f'.same f ∧ ofForest f' = ofForest f) := by
  constructor
  · intro e h
    exact ⟨e.stored, decodeExpr_ofExpr h start', e.stored_same, ofExpr_stored e⟩
  · intro f h
    exact ⟨f.stored, decodeForest_ofForest h, f.stored_same, ofForest_stored f⟩

/-- A document with a null increment, a reference as a string and an empty file name. -/
theorem decode_encode_short :
    (∃ f, decodeForest (.obj [("variables", .arr [.obj [("name", .str "a"),
        ("expr", .obj [("type", .str "sequence"), ("first", .int 0), ("last", .str "b"),
          ("increment", .null)]),
        ("position", .obj [("line", .int 1), ("column", .int 2), ("file", .str "")])]])]) = .ok f ∧
      ∃ f', decodeForest (ofForest f) = .ok f' ∧ f'.same f ∧ ofForest f' = ofForest f) ∧
    ∃ e, decodeExpr "expr" (.str "b") = .ok e ∧
      ∃ e', decodeExpr "expr" (ofExpr e) = .ok e' ∧ e'.same e ∧ ofExpr e' = ofExpr e := by
  constructor
  · refine ⟨{ declarations := [{
      name := "a", expr := .sequence (.literal 0) (.reference { path := "b" }) (.literal 1),
      position? := some { line := 1, column := 2, file? := some "" } }] }, ?_⟩
    exact (fun hd => ⟨hd, (decode_encode "" "" _).2 _ hd⟩) rfl
  · refine ⟨.reference { path := "b" }, ?_⟩
    exact (fun hd => ⟨hd, (decode_encode "expr" "expr" _).1 _ hd⟩) rfl

end Document

end Stimulus
