import Stimulus.Sampling.Pool
import Stimulus.Sampling.WeightedPool
import Stimulus.Scope

/-!
# Cells

The state of a variable: a tree of cells with the shape of its expression. Every cell reports the
value and the done flag of its last step and keeps what it needs for the next one.
-/
namespace Stimulus

open Stimulus.Sampling

/-- What a step gives: a value, and whether the node has come to the end of its round. -/
structure Reading where
  value : Int
  done : Bool
  deriving DecidableEq, Repr

/-- The last reading of a cell. A cell that has never been stepped is not ready. -/
structure Report where
  value : Int := 0
  done : Bool := false
  ready : Bool := false
  deriving DecidableEq, Repr

namespace Report

def reading (r : Report) : Reading := ⟨r.value, r.done⟩

def ofReading (x : Reading) : Report := ⟨x.value, x.done, true⟩

/-- A step that fails leaves the report as it was. -/
def settle (r : Report) : Except Failure Reading → Report
  | .ok x => ofReading x
  | .error _ => r

end Report

/-- The progress of an arithmetic progression. -/
structure Progress where
  current : Int := 0
  ascending : Bool := true
  needsReset : Bool := true
  deriving DecidableEq, Repr

namespace Progress

/-- Whether a value lies beyond the last one. -/
def passed (value last : Int) (ascending : Bool) : Bool :=
  if ascending then last < value else value < last

/-- One step of a given size in a direction. -/
def stepped (value size : Int) (ascending : Bool) : Int :=
  if ascending then value + size else value - size

/-- The next reading of a progression over the given operands. The value moves by one step, and
starts again at the first one where that would lie beyond the last; it is done where the next step
would. -/
def advance (p : Progress) (ready : Bool) (first last increment : Int) : Reading × Progress :=
  let size : Int := increment.natAbs
  let ascending : Bool := first ≤ last
  let next := stepped p.current size ascending
  let current :=
    if !ready || p.needsReset then first else if passed next last ascending then first else next
  (⟨current, passed (stepped current size ascending) last ascending⟩,
    { current, ascending, needsReset := false })

end Progress

/-- A cell without cells below it. -/
inductive Leaf
  | literal (value : Int)
  | item (name : String) (value : Int)
  | constant (ref : Identifier) (value : Int)
  | enumeration (ref : Identifier) (name : String) (values : List Int)
  | read (ref : Identifier) (name : String) (index : Nat)
  | next (ref : Identifier) (name : String) (index : Nat)
  deriving DecidableEq, Repr

namespace Leaf

def expr : Leaf → Expr
  | literal value => .literal value
  | item name value => .item name value
  | constant ref _ | enumeration ref _ _ | read ref _ _ | next ref _ _ => .reference ref

end Leaf

/-- How a cell with members chooses the one to be stepped. A sampler plays a member out: it stays
selected until it is done. -/
inductive Chooser
  | pattern (cursor : Nat)
  | sample (current? : Option Nat)
  | weightedSample (table : WeightTable) (current? : Option Nat)
  | pool (pool : Pool) (current? : Option Ticket)
  | weightedPool (pool : WeightedPool) (current? : Option Ticket)
  deriving DecidableEq, Repr

namespace Chooser

def reset : Chooser → Chooser
  | pattern _ => pattern 0
  | sample _ => sample none
  | weightedSample table _ => weightedSample table none
  | pool p _ => pool p.refill none
  | weightedPool p _ => weightedPool p.refill none

/-- The expression of a chooser over members. -/
def expr (members : List Expr) : Chooser → Expr
  | pattern _ => .pattern members
  | sample _ => .sample members
  | weightedSample table _ => .weightedSample (table.weights.zip members)
  | pool _ _ => .pool members
  | weightedPool p _ => .weightedPool (p.weights.zip members)

end Chooser

inductive Cell
  | leaf (leaf : Leaf) (report : Report)
  | copy (ref : Identifier) (name : String) (body : Cell) (report : Report)
  | range (min max : Cell) (report : Report)
  | sequence (first last increment : Cell) (progress : Progress) (report : Report)
  | choice (chooser : Chooser) (members : List Cell) (report : Report)
  | unary (op : UnaryOp) (operand : Cell) (report : Report)
  | binary (op : BinaryOp) (left right : Cell) (report : Report)
  deriving Repr

namespace Cell

def report : Cell → Report
  | leaf _ r | copy _ _ _ r | range _ _ r | sequence _ _ _ _ r | choice _ _ r | unary _ _ r
  | binary _ _ _ r => r

def reading (c : Cell) : Reading := c.report.reading

/-- The cells directly below a cell. -/
def children : Cell → List Cell
  | leaf _ _ => []
  | copy _ _ body _ => [body]
  | range min max _ => [min, max]
  | sequence first last increment _ _ => [first, last, increment]
  | choice _ members _ => members
  | unary _ operand _ => [operand]
  | binary _ left right _ => [left, right]

mutual

/-- The expression that a cell belongs to. -/
def expr : Cell → Expr
  | leaf l _ => l.expr
  | copy ref _ _ _ => .reference ref
  | range min max _ => .range min.expr max.expr
  | sequence first last increment _ _ => .sequence first.expr last.expr increment.expr
  | choice chooser members _ => chooser.expr (memberExprs members)
  | unary op operand _ => .unary op operand.expr
  | binary op left right _ => .binary op left.expr right.expr

def memberExprs : List Cell → List Expr
  | [] => []
  | c :: rest => c.expr :: memberExprs rest

end

mutual

/-- The cell as it was before its first step, and so is every cell below it. -/
def reset : Cell → Cell
  | leaf l _ => leaf l {}
  | copy ref name body _ => copy ref name body.reset {}
  | range min max _ => range min.reset max.reset {}
  | sequence first last increment _ _ =>
    sequence first.reset last.reset increment.reset {} {}
  | choice chooser members _ => choice chooser.reset (resetMembers members) {}
  | unary op operand _ => unary op operand.reset {}
  | binary op left right _ => binary op left.reset right.reset {}

def resetMembers : List Cell → List Cell
  | [] => []
  | c :: rest => c.reset :: resetMembers rest

end

@[simp] theorem report_reset (c : Cell) : c.reset.report = {} := by
  cases c <;> simp [reset, report]

theorem memberExprs_eq_map (cells : List Cell) : memberExprs cells = cells.map expr := by
  induction cells with
  | nil => rfl
  | cons c rest ih => simp [memberExprs, ih]

theorem resetMembers_eq_map (cells : List Cell) : resetMembers cells = cells.map reset := by
  induction cells with
  | nil => rfl
  | cons c rest ih => simp [resetMembers, ih]

end Cell

end Stimulus
