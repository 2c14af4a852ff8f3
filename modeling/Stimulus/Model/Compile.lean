import Stimulus.Check
import Stimulus.Model.Basic
import Stimulus.Settings

/-!
# Compiling forests

The model of a forest. Enumerations come first; then every declaration is checked, and its cells
are built in the scope of the variables before it. The first inconsistency ends the compilation.
-/
namespace Stimulus

open Stimulus.Random

namespace Enumeration

/-- The first of an enumeration's items that repeats a name or has a negative value. -/
def itemCause? (enum : String) (seen : List String) :
    List (String × Int) → Option ConstructionCause
  | [] => none
  | (item, value) :: rest =>
    if seen.contains item then some (.duplicateItem enum item)
    else if value < 0 then some (.negativeItem enum item value)
    else itemCause? enum (item :: seen) rest

/-- What is wrong with a declaration of an enumeration behind others. -/
def cause? (others : List Enumeration) (d : EnumDecl) : Option ConstructionCause :=
  if others.any (·.name == d.name) then some (.duplicateEnum d.name)
  else (itemCause? d.name [] d.valuedItems).or
    (if d.items.isEmpty then some (.emptyEnum d.name) else none)

/-- Adds enumerations behind others. -/
def declareAll (others : List Enumeration) :
    List EnumDecl → Except (Located ConstructionCause) (List Enumeration)
  | [] => .ok others
  | d :: rest =>
    match cause? others d with
    | some cause => .error { cause, position? := d.position? }
    | none => declareAll (others ++ [⟨d.name, d.valuedItems⟩]) rest

end Enumeration

namespace Scope

/-- What is wrong with the name of a declaration. -/
def nameCause? (scope : Scope) (d : Declaration) : Option ConstructionCause :=
  if (scope.index? d.name).isSome then some (.duplicateVariable d.name)
  else if (scope.enumValues? d.name).isSome then some (.enumNamesake d.name)
  else none

/-- The cells of a declaration in the scope of the variables before it. -/
def compileDeclaration (scope : Scope) (d : Declaration) : Except Error Cell := do
  match scope.nameCause? d with
  | some cause =>
    throw (.construction { cause, variableName? := some d.name, position? := d.position? })
  | none =>
    (d.expr.check (some d.name) d.position?).mapError .ofConstruction
    scope.buildCell { subject? := some d.name } d.position? d.expr

/-- Compiles declarations behind the ones that the scope and the cells hold. -/
def compileFrom (scope : Scope) (cells : Array Cell) :
    List Declaration → Except Error (Scope × Array Cell)
  | [] => .ok (scope, cells)
  | d :: rest =>
    match scope.compileDeclaration d with
    | .error error => .error error
    | .ok cell => compileFrom (scope.declare d) (cells.push cell) rest

end Scope

namespace Model

/-- The model of a forest, before its first cycle. -/
def compile (settings : Settings) (forest : Forest) : Except Error Model := do
  let enumerations ← (Enumeration.declareAll [] forest.enums).mapError .ofConstruction
  let declared := forest.declarations.map (·.name)
  let (scope, cells) ← Scope.compileFrom { enumerations, declared } #[] forest.declarations
  return { scope, cells, source := settings.source }

end Model

end Stimulus
