import Stimulus.Expr.Text

/-!
# Forests

Everything a model is built from: enumerations, and variables in the order of their declaration.
-/
namespace Stimulus

/-- An item of an enumeration. Without a value it takes its place, counted from zero. -/
structure EnumItem where
  name : String
  value? : Option Int := none
  deriving DecidableEq, Repr

structure EnumDecl where
  name : String
  items : List EnumItem
  position? : Option Position := none
  deriving DecidableEq, Repr

namespace EnumDecl

def same (a b : EnumDecl) : Bool := a.name == b.name && a.items == b.items

/-- Each item with its value, explicit or its place from `start` on. -/
def valuedFrom (start : Nat) : List EnumItem → List (String × Int)
  | [] => []
  | item :: rest => (item.name, item.value?.getD start) :: valuedFrom (start + 1) rest

def valuedItems (d : EnumDecl) : List (String × Int) := valuedFrom 0 d.items

end EnumDecl

structure Declaration where
  name : String
  expr : Expr
  position? : Option Position := none
  deriving Repr

namespace Declaration

def text (d : Declaration) : String := s!"{d.name} = {d.expr.text};"

def same (a b : Declaration) : Bool := a.name == b.name && a.expr.same b.expr

end Declaration

structure Forest where
  enums : List EnumDecl := []
  declarations : List Declaration := []
  deriving Repr

namespace Forest

/-- Equality of all but the positions. -/
def same (a b : Forest) : Bool :=
  a.enums.length == b.enums.length && (a.enums.zip b.enums).all (fun (d, e) => d.same e) &&
    a.declarations.length == b.declarations.length &&
    (a.declarations.zip b.declarations).all (fun (d, e) => d.same e)

end Forest

end Stimulus
