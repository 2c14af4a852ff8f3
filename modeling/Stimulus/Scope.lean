import Stimulus.Diagnostic
import Stimulus.Forest

/-!
# Scopes

The names that a reference may use. An item of an enumeration is reached as `Enum.ITEM` and, where
only one enumeration has it, as `ITEM`; then come enumerations, and then the variables declared so
far. A variable's name may be followed by `.prev`, `.next` or `.copy`.
-/
namespace Stimulus

/-- An enumeration with the values of its items. -/
structure Enumeration where
  name : String
  items : List (String × Int)
  deriving DecidableEq, Repr

namespace Enumeration

def values (e : Enumeration) : List Int := e.items.map Prod.snd

/-- The full names of the items. -/
def fullNames (e : Enumeration) : List (String × Int) :=
  e.items.map fun (item, value) => (e.name ++ "." ++ item, value)

end Enumeration

/-- What a reference is bound to. -/
inductive Target
  | constant (value : Int)
  | enumeration (name : String) (values : List Int)
  | read (name : String) (index : Nat)
  | next (name : String) (index : Nat)
  | copy (name : String) (index : Nat)
  deriving DecidableEq, Repr

structure Scope where
  enumerations : List Enumeration := []
  /-- The variables that may be referred to, in their order. -/
  declarations : List Declaration := []
  /-- All names that are declared anywhere. -/
  declared : List String := []

namespace Scope

/-- The value of an item by its full name. Of items with one full name the last one counts. -/
def itemValue? (scope : Scope) (path : String) : Option Int :=
  (scope.enumerations.flatMap Enumeration.fullNames).reverse.lookup path

/-- The enumerations that have an item of a name, with its value. -/
def bareItems (scope : Scope) (path : String) : List (String × Int) :=
  scope.enumerations.flatMap fun e =>
    (e.items.filter fun (item, _) => item == path).map fun (_, value) => (e.name, value)

def enumValues? (scope : Scope) (path : String) : Option (List Int) :=
  (scope.enumerations.find? (·.name == path)).map Enumeration.values

/-- The place of a variable in the order of declaration. -/
def index? (scope : Scope) (name : String) : Option Nat :=
  scope.declarations.findIdx? (·.name == name)

/-- Adds a variable behind the others. -/
def declare (scope : Scope) (d : Declaration) : Scope :=
  { scope with declarations := scope.declarations ++ [d] }

end Scope

/-- A path that ends in a point and an access, split in front of that point. -/
def splitAccess? (path : String) : Option (String × Access) :=
  let chars := path.toList.reverse
  let suffix := (chars.takeWhile (· != '.')).reverse
  match chars.dropWhile (· != '.') with
  | _ :: base =>
    if base.isEmpty then none
    else (Access.ofName? (String.ofList suffix)).map fun access =>
      (String.ofList base.reverse, access)
  | [] => none

namespace Scope

/-- How references are resolved: for which variable, and whether a reference may step one. -/
structure Use where
  subject? : Option String := none
  allowNext : Bool := true

/-- What a name without a variable behind it fails with. -/
def missing (scope : Scope) (use : Use) (path : String) (access? : Option Access) :
    ConstructionCause :=
  if use.subject? = some path then .selfReference path
  else if scope.declared.contains path then .forwardReference path
  else match access? with
    | some access => .noVariable path access
    | none => .undeclared path

/-- Binds a path to a variable. -/
def resolveVariable (scope : Scope) (use : Use) (path : String) (access? : Option Access) :
    Except ConstructionCause Target :=
  match scope.index? path with
  | none => .error (scope.missing use path access?)
  | some index =>
    match access? with
    | some .copy => .ok (.copy path index)
    | some .next => if use.allowNext then .ok (.next path index)
      else .error (.nextOutsideCycle path)
    | some .prev | none => .ok (.read path index)

/-- Binds a path without an access of its own: to an item, an enumeration or a variable. -/
def resolvePath (scope : Scope) (use : Use) (path : String) : Except ConstructionCause Target :=
  match scope.itemValue? path with
  | some value => .ok (.constant value)
  | none =>
    match scope.bareItems path with
    | [(_, value)] => .ok (.constant value)
    | first :: second :: more =>
      .error (.ambiguousItem path ((first :: second :: more).map Prod.fst))
    | [] =>
      match scope.enumValues? path with
      | some values => .ok (.enumeration path values)
      | none =>
        match scope.index? path, splitAccess? path with
        | none, some (base, access) => scope.resolveVariable use base (some access)
        | _, _ => scope.resolveVariable use path none

def resolveTarget (scope : Scope) (use : Use) (ref : Identifier) :
    Except ConstructionCause Target :=
  match ref.access? with
  | none => scope.resolvePath use ref.path
  | some access => scope.resolveVariable use ref.path (some access)

/-- Binds a reference, or tells why it cannot be bound, with the subject and the position of the
reference. -/
def resolve (scope : Scope) (use : Use) (ref : Identifier) :
    Except (Located ConstructionCause) Target :=
  (scope.resolveTarget use ref).mapError fun cause =>
    { cause, variableName? := use.subject?, position? := ref.position? }

end Scope

end Stimulus
