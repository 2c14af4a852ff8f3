import Stimulus.Fault

/-!
# Operators

The operators of composed expressions and their symbols.
-/
namespace Stimulus

inductive UnaryOp
  | complement
  deriving DecidableEq, Repr

inductive BinaryOp
  | or
  | xor
  | and
  | shiftLeft
  | shiftRight
  | add
  | sub
  | mul
  | div
  | mod
  deriving DecidableEq, Repr

namespace UnaryOp

def all : List UnaryOp := [complement]

def symbol : UnaryOp → String
  | complement => "~"

def ofSymbol? (s : String) : Option UnaryOp := all.find? (·.symbol == s)

def ofSymbol (s : String) : Except Fault UnaryOp :=
  match ofSymbol? s with
  | some op => .ok op
  | none => .error (.unknownUnary s)

@[simp] theorem ofSymbol?_symbol (op : UnaryOp) : ofSymbol? op.symbol = some op := by
  cases op; decide

end UnaryOp

namespace BinaryOp

def all : List BinaryOp :=
  [or, xor, and, shiftLeft, shiftRight, add, sub, mul, div, mod]

def symbol : BinaryOp → String
  | or => "|"
  | xor => "^"
  | and => "&"
  | shiftLeft => "<<"
  | shiftRight => ">>"
  | add => "+"
  | sub => "-"
  | mul => "*"
  | div => "/"
  | mod => "%"

def ofSymbol? (s : String) : Option BinaryOp := all.find? (·.symbol == s)

def ofSymbol (s : String) : Except Fault BinaryOp :=
  match ofSymbol? s with
  | some op => .ok op
  | none => .error (.unknownBinary s)

@[simp] theorem ofSymbol?_symbol (op : BinaryOp) : ofSymbol? op.symbol = some op := by
  cases op <;> decide

end BinaryOp

end Stimulus
