import Stimulus.Operator
import Stimulus.Position

/-!
# Expressions

The trees that define variables. They hold no state; a position takes no part in the comparison
of two expressions.
-/
namespace Stimulus

/-- How a reference uses a variable: its value of this cycle, one more step of it, or a private
clone of its expression. -/
inductive Access
  | prev
  | next
  | copy
  deriving DecidableEq, Repr

namespace Access

def all : List Access := [prev, next, copy]

def name : Access → String
  | prev => "prev"
  | next => "next"
  | copy => "copy"

def ofName? (s : String) : Option Access := all.find? (·.name == s)

def ofName (s : String) : Except Fault Access :=
  match ofName? s with
  | some access => .ok access
  | none => .error (.unknownAccess s)

@[simp] theorem ofName?_name (access : Access) : ofName? access.name = some access := by
  cases access <;> decide

end Access

/-- A reference by name. -/
structure Identifier where
  path : String
  access? : Option Access := none
  position? : Option Position := none
  deriving DecidableEq, Repr

namespace Identifier

def text (ref : Identifier) : String :=
  match ref.access? with
  | none => ref.path
  | some access => s!"{ref.path}.{access.name}"

/-- Equality of all but the positions. -/
def same (a b : Identifier) : Bool := a.path == b.path && a.access? == b.access?

def withoutPosition (ref : Identifier) : Identifier := { ref with position? := none }

/-- Gives a reference without a position the position of its declaration. -/
def placedAt (position? : Option Position) (ref : Identifier) : Identifier :=
  { ref with position? := ref.position?.or position? }

end Identifier

inductive Expr
  | literal (value : Int)
  | item (name : String) (value : Int)
  | reference (ref : Identifier)
  | range (min max : Expr)
  | pattern (members : List Expr)
  | sequence (first last increment : Expr)
  | sample (members : List Expr)
  | pool (members : List Expr)
  | weightedSample (members : List (Int × Expr))
  | weightedPool (members : List (Int × Expr))
  | unary (op : UnaryOp) (operand : Expr)
  | binary (op : BinaryOp) (left right : Expr)
  deriving Inhabited, Repr

/-- The sum of weights. -/
def totalWeight : List Int → Int
  | [] => 0
  | weight :: rest => weight + totalWeight rest

namespace Expr

def weights (members : List (Int × Expr)) : List Int := members.map Prod.fst

mutual

/-- Equality of all but the positions. -/
def same : Expr → Expr → Bool
  | .literal a, .literal b => a == b
  | .item n a, .item m b => n == m && a == b
  | .reference a, .reference b => a.same b
  | .range a b, .range c d => a.same c && b.same d
  | .pattern as, .pattern bs => sameMembers as bs
  | .sequence a b c, .sequence d e f => a.same d && b.same e && c.same f
  | .sample as, .sample bs => sameMembers as bs
  | .pool as, .pool bs => sameMembers as bs
  | .weightedSample as, .weightedSample bs => sameWeighted as bs
  | .weightedPool as, .weightedPool bs => sameWeighted as bs
  | .unary o a, .unary p b => o == p && a.same b
  | .binary o a b, .binary p c d => o == p && a.same c && b.same d
  | _, _ => false

def sameMembers : List Expr → List Expr → Bool
  | [], [] => true
  | a :: as, b :: bs => a.same b && sameMembers as bs
  | _, _ => false

def sameWeighted : List (Int × Expr) → List (Int × Expr) → Bool
  | [], [] => true
  | (v, a) :: as, (w, b) :: bs => v == w && a.same b && sameWeighted as bs
  | _, _ => false

end

mutual

/-- The expression with every reference's position forgotten. -/
def withoutPositions : Expr → Expr
  | .literal value => .literal value
  | .item name value => .item name value
  | .reference ref => .reference ref.withoutPosition
  | .range min max => .range min.withoutPositions max.withoutPositions
  | .pattern members => .pattern (membersWithoutPositions members)
  | .sequence first last increment =>
    .sequence first.withoutPositions last.withoutPositions increment.withoutPositions
  | .sample members => .sample (membersWithoutPositions members)
  | .pool members => .pool (membersWithoutPositions members)
  | .weightedSample members => .weightedSample (weightedWithoutPositions members)
  | .weightedPool members => .weightedPool (weightedWithoutPositions members)
  | .unary op operand => .unary op operand.withoutPositions
  | .binary op left right => .binary op left.withoutPositions right.withoutPositions

def membersWithoutPositions : List Expr → List Expr
  | [] => []
  | e :: rest => e.withoutPositions :: membersWithoutPositions rest

def weightedWithoutPositions : List (Int × Expr) → List (Int × Expr)
  | [] => []
  | (w, e) :: rest => (w, e.withoutPositions) :: weightedWithoutPositions rest

end

mutual

/-- The expression and everything below it, parents first. -/
def walk : Expr → List Expr
  | .literal value => [.literal value]
  | .item name value => [.item name value]
  | .reference ref => [.reference ref]
  | .range min max => .range min max :: (min.walk ++ max.walk)
  | .pattern members => .pattern members :: walkMembers members
  | .sequence first last increment =>
    .sequence first last increment :: (first.walk ++ last.walk ++ increment.walk)
  | .sample members => .sample members :: walkMembers members
  | .pool members => .pool members :: walkMembers members
  | .weightedSample members => .weightedSample members :: walkWeighted members
  | .weightedPool members => .weightedPool members :: walkWeighted members
  | .unary op operand => .unary op operand :: operand.walk
  | .binary op left right => .binary op left right :: (left.walk ++ right.walk)

def walkMembers : List Expr → List Expr
  | [] => []
  | e :: rest => e.walk ++ walkMembers rest

def walkWeighted : List (Int × Expr) → List Expr
  | [] => []
  | (_, e) :: rest => e.walk ++ walkWeighted rest

end

theorem mem_walk_self (e : Expr) : e ∈ e.walk := by
  cases e <;> simp [walk]

end Expr

end Stimulus
