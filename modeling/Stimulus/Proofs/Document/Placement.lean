import Stimulus.Proofs.Document.RoundTrip

/-!
# Positions on the way to a document and back

The comparison of two forests does not see positions, so they are followed here for themselves. Of
a declaration and of every reference in its expression the document keeps the position, but for an
empty file name; of an enumeration it keeps none.
-/
namespace Stimulus

/-- An empty file name is all that a document does not keep of a position. -/
theorem Position.stored_eq_self_iff {p : Position} : p.stored = p ↔ p.file? ≠ some "" := by
  obtain ⟨line, column, file?⟩ := p
  cases file? with
  | none => simp [stored]
  | some file => simp [stored, Option.filter_eq_some_iff]

namespace Expr

/-- The reference that an expression is. -/
def reference? : Expr → Option Identifier
  | .reference ref => some ref
  | _ => none

/-- The references in an expression at every depth, in the order of its nodes. -/
def references (e : Expr) : List Identifier := e.walk.filterMap reference?

theorem references_eq (e : Expr) :
    e.references = e.reference?.toList ++ e.members.flatMap references := by
  rw [references, walk_eq, List.filterMap_cons, List.filterMap_flatMap]
  cases e.reference? <;> rfl

theorem reference?_mapReferences (f : Identifier → Identifier) (e : Expr) :
    (e.mapReferences f).reference? = e.reference?.map f := by
  cases e <;> rfl

theorem members_mapReferences (f : Identifier → Identifier) (e : Expr) :
    (e.mapReferences f).members = e.members.map (mapReferences f) := by
  cases e <;> simp [mapReferences, members, mapMembers_eq_map, mapWeighted_eq_map]

theorem references_mapReferences (f : Identifier → Identifier) (e : Expr) :
    (e.mapReferences f).references = e.references.map f := by
  induction e using induct_members with
  | hexpr e ih =>
    rw [references_eq, references_eq e, members_mapReferences, reference?_mapReferences,
      List.flatMap_map, List.flatMap_congr ih, List.map_append, List.map_flatMap]
    cases e.reference? <;> rfl

end Expr

/-- The positions in a forest: of its enumerations, of its declarations, and of the references in
each declaration. -/
structure Placement where
  enums : List (Option Position)
  declarations : List (Option Position)
  references : List (List (Option Position))
  deriving DecidableEq, Repr

def Forest.placement (f : Forest) : Placement :=
  { enums := f.enums.map (·.position?)
    declarations := f.declarations.map (·.position?)
    references := f.declarations.map fun d => d.expr.references.map (·.position?) }

namespace Placement

/-- What a document keeps of the positions. -/
def stored (p : Placement) : Placement :=
  { enums := p.enums.map fun _ => none
    declarations := p.declarations.map (Option.map Position.stored)
    references := p.references.map (List.map (Option.map Position.stored)) }

/-- Positions of which nothing is lost: no enumeration has one, and no file name is empty. -/
structure Lasting (p : Placement) : Prop where
  enums : ∀ position? ∈ p.enums, position? = none
  declarations : ∀ position, some position ∈ p.declarations → position.file? ≠ some ""
  references : ∀ positions ∈ p.references, ∀ position, some position ∈ positions →
    position.file? ≠ some ""

theorem map_eq_self_iff {α : Type} {f : α → α} {l : List α} : l.map f = l ↔ ∀ a ∈ l, f a = a := by
  rw [← List.map_inj_left, List.map_id']

theorem map_stored_eq_self_iff {positions : List (Option Position)} :
    positions.map (Option.map Position.stored) = positions ↔
      ∀ position, some position ∈ positions → position.file? ≠ some "" := by
  rw [map_eq_self_iff]
  constructor
  · intro h position hmem
    exact Position.stored_eq_self_iff.mp (Option.some.inj (h _ hmem))
  · intro h position? hmem
    cases position? with
    | none => rfl
    | some position => rw [Option.map_some, Position.stored_eq_self_iff.mpr (h position hmem)]

theorem stored_eq_self_iff {p : Placement} : p.stored = p ↔ p.Lasting := by
  have henums : p.enums.map (fun _ => none) = p.enums ↔
      ∀ position? ∈ p.enums, position? = none := by
    rw [map_eq_self_iff]
    exact ⟨fun h position? hmem => (h position? hmem).symm,
      fun h position? hmem => (h position? hmem).symm⟩
  have hreferences : p.references.map (List.map (Option.map Position.stored)) = p.references ↔
      ∀ positions ∈ p.references, ∀ position, some position ∈ positions →
        position.file? ≠ some "" := by
    rw [map_eq_self_iff]
    exact forall₂_congr fun positions _ => map_stored_eq_self_iff
  rw [stored, mk.injEq, henums, map_stored_eq_self_iff, hreferences]
  exact ⟨fun h => ⟨h.1, h.2.1, h.2.2⟩, fun h => ⟨h.enums, h.declarations, h.references⟩⟩

end Placement

theorem Forest.placement_stored (f : Forest) : f.stored.placement = f.placement.stored := by
  have hreferences (e : Expr) : e.stored.references.map (·.position?) =
      (e.references.map (·.position?)).map (Option.map Position.stored) := by
    rw [Expr.stored, Expr.references_mapReferences, List.map_map, List.map_map]
    rfl
  simp only [placement, stored, Placement.stored, List.map_map, Function.comp_def,
    EnumDecl.stored, Declaration.stored, hreferences]

namespace Document

/-- A forest that was decoded is encoded and decoded again to the same forest. The positions of its
declarations and of all references in them are the same, where there are any, but for empty file
names; enumerations have no position any more. So all positions are the same exactly if no
enumeration had one and no file name was empty. -/
theorem placement_decode_encode {d : Json} {f : Forest} (h : decodeForest d = .ok f) :
    ∃ f', decodeForest (ofForest f) = .ok f' ∧ f'.same f ∧
      f'.placement.declarations = f.placement.declarations.map (Option.map Position.stored) ∧
      f'.placement.references = f.placement.references.map (List.map (Option.map Position.stored)) ∧
      (∀ e ∈ f'.enums, e.position? = none) ∧
      (f'.placement = f.placement ↔ f.placement.Lasting) := by
  have hplacement := f.placement_stored
  refine ⟨f.stored, decodeForest_ofForest h, f.stored_same, ?_, ?_, ?_, ?_⟩
  · rw [hplacement, Placement.stored]
  · rw [hplacement, Placement.stored]
  · intro e he
    obtain ⟨d, -, rfl⟩ := List.mem_map.mp he
    rfl
  · rw [hplacement, Placement.stored_eq_self_iff]

/-- A position of a declaration, one of a reference inside an expression without a file name, and
one of an enumeration. -/
theorem placement_decode_encode_short :
    ∃ f, decodeForest (.obj [
        ("enums", .arr [.obj [("name", .str "E"), ("items", .arr [.obj [("name", .str "A")]]),
          ("position", .obj [("line", .int 3), ("column", .int 5)])]]),
        ("variables", .arr [.obj [("name", .str "a"),
          ("expr", .obj [("type", .str "pattern"), ("members", .arr [.str "A",
            .obj [("type", .str "identifier"), ("path", .str "A"),
              ("position", .obj [("line", .int 7), ("column", .int 9), ("file", .str "")])]])]),
          ("position", .obj [("line", .int 7), ("column", .int 1), ("file", .str "s.rvs")])]])]) =
        .ok f ∧
      ∃ f', decodeForest (ofForest f) = .ok f' ∧ f'.same f ∧
        f'.placement.declarations = f.placement.declarations.map (Option.map Position.stored) ∧
        f'.placement.references =
          f.placement.references.map (List.map (Option.map Position.stored)) ∧
        (∀ e ∈ f'.enums, e.position? = none) ∧
        (f'.placement = f.placement ↔ f.placement.Lasting) := by
  refine ⟨{
    enums := [{ name := "E", items := [{ name := "A" }], position? := some ⟨3, 5, none⟩ }]
    declarations := [{
      name := "a", position? := some ⟨7, 1, some "s.rvs"⟩
      expr := .pattern [.reference { path := "A" },
        .reference { path := "A", position? := some ⟨7, 9, some ""⟩ }] }] }, ?_⟩
  exact (fun hd => ⟨hd, placement_decode_encode hd⟩) rfl

/-- The position of an enumeration is read but not written again. -/
theorem placement_not_kept :
    ¬ ∀ (d : Json) (f f' : Forest), decodeForest d = .ok f → decodeForest (ofForest f) = .ok f' →
      f'.placement = f.placement := by
  intro h
  have hlost := h
    (.obj [("enums", .arr [.obj [("name", .str "E"), ("items", .arr [.obj [("name", .str "A")]]),
      ("position", .obj [("line", .int 3), ("column", .int 5), ("file", .str "s.rvs")])]])])
    { enums := [{
        name := "E", items := [{ name := "A" }], position? := some ⟨3, 5, some "s.rvs"⟩ }] }
    { enums := [{ name := "E", items := [{ name := "A" }] }] } rfl rfl
  exact absurd hlost (by decide)

end Document

end Stimulus
