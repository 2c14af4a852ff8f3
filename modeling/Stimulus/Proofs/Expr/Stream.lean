import Stimulus.Cell.Basic
import Stimulus.Word

/-!
# Closed streams

An expression without draws and without variables denotes a stream: what its evaluations give, one
after the other, as a function of their number alone. A stream has no reading where an operation or
a progression fails.
-/
namespace Stimulus

/-- The operands of a progression at one place of their streams. -/
structure Bounds where
  first : Int
  last : Int
  increment : Int

namespace Bounds

/-- The direction from the first value to the last. -/
def direction (b : Bounds) : Int := if b.first ≤ b.last then 1 else -1

/-- Whether a value lies beyond the last one. -/
def beyond (b : Bounds) (value : Int) : Bool := 0 < b.direction * (value - b.last)

/-- The value that is one step behind another one. -/
def behind (b : Bounds) (value : Int) : Int := value + b.direction * b.increment.natAbs

/-- The operands from three readings. An increment of zero is refused. -/
def ofReadings? (first last increment : Option Reading) : Option Bounds := do
  let a ← first
  let b ← last
  let c ← increment
  if c.value = 0 then none else some ⟨a.value, b.value, c.value⟩

end Bounds

/-- The values of a progression over a stream of operands: the first value, and then one step behind
the value before, or the first value again where that lies beyond the last. -/
def progressionValue (bounds : Nat → Option Bounds) : Nat → Option Int
  | 0 => (bounds 0).map (·.first)
  | k + 1 => do
    let previous ← progressionValue bounds k
    let b ← bounds (k + 1)
    return if b.beyond (b.behind previous) then b.first else b.behind previous

/-- A progression is done where one more step would lie beyond the last value. -/
def progression (bounds : Nat → Option Bounds) (k : Nat) : Option Reading := do
  let b ← bounds k
  let value ← progressionValue bounds k
  return ⟨value, b.beyond (b.behind value)⟩

namespace Expr

variable (constant : Identifier → Option Int)

mutual

/-- The stream of an expression; `constant` gives the references that stand for a constant. -/
def stream : Expr → Nat → Option Reading
  | .literal value, _ | .item _ value, _ => some ⟨value, true⟩
  | .reference ref, _ => (constant ref).map (⟨·, true⟩)
  | .pattern members, k =>
    (memberStream members (k % members.length) (k / members.length)).map fun x =>
      ⟨x.value, k % members.length + 1 == members.length⟩
  | .sequence first last increment, k =>
    progression
      (fun j => Bounds.ofReadings? (first.stream j) (last.stream j) (increment.stream j)) k
  | .unary op operand, k => (operand.stream k).map fun x => ⟨op.apply x.value, x.done⟩
  | .binary op left right, k => do
    let x ← left.stream k
    let y ← right.stream k
    let value ← (op.apply x.value y.value).toOption
    return ⟨value, x.done || y.done⟩
  | _, _ => none

/-- The stream of a member. -/
def memberStream : List Expr → Nat → Nat → Option Reading
  | [], _, _ => none
  | e :: _, 0, k => e.stream k
  | _ :: rest, i + 1, k => memberStream rest i k

end

/-- Expressions of literals, items, constants, patterns with members, progressions and operators. -/
inductive Closed : Expr → Prop
  | literal (value : Int) : Closed (.literal value)
  | item (name : String) (value : Int) : Closed (.item name value)
  | reference {ref : Identifier} {value : Int} (href : constant ref = some value) :
      Closed (.reference ref)
  | pattern {members : List Expr} (hne : members ≠ []) (hmembers : ∀ e ∈ members, Closed e) :
      Closed (.pattern members)
  | sequence {first last increment : Expr} (hfirst : Closed first) (hlast : Closed last)
      (hincrement : Closed increment) : Closed (.sequence first last increment)
  | unary {op : UnaryOp} {operand : Expr} (hoperand : Closed operand) : Closed (.unary op operand)
  | binary {op : BinaryOp} {left right : Expr} (hleft : Closed left) (hright : Closed right) :
      Closed (.binary op left right)

variable {constant}

/-- The operands of a sequence at a place of their streams. -/
def bounds (constant : Identifier → Option Int) (first last increment : Expr) (k : Nat) :
    Option Bounds :=
  Bounds.ofReadings? (first.stream constant k) (last.stream constant k)
    (increment.stream constant k)

theorem stream_sequence (first last increment : Expr) (k : Nat) :
    (sequence first last increment).stream constant k =
      progression (bounds constant first last increment) k := by
  rw [stream]
  rfl

theorem memberStream_eq (members : List Expr) (i k : Nat) :
    memberStream constant members i k = members[i]?.bind (·.stream constant k) := by
  induction members generalizing i with
  | nil => rfl
  | cons e rest ih =>
    cases i with
    | zero => rfl
    | succ i => exact ih i

end Expr

end Stimulus
