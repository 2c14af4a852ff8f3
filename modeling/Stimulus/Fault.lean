import Stimulus.Text.Numeral
import Stimulus.Text.Quoted

/-!
# Faults

A fault is a refused argument of one of the basic operations. It belongs to no place in a forest,
and so it carries no variable and no position.
-/
namespace Stimulus

/-- What kind of argument was refused. -/
inductive FaultKind
  | value
  | name
  | index
  | overflow
  | blank
  deriving DecidableEq, Repr

inductive Fault
  | unknownUnary (symbol : String)
  | unknownBinary (symbol : String)
  | unknownAccess (name : String)
  | negativeShift
  | emptyRange (lo hi : Int)
  | lowOutOfBounds
  | highOutOfSignedBounds
  | highOutOfUnsignedBounds
  | noIndices (count : Int)
  | negativeWeights (weights : List Int)
  | negativeTable (weights : List Int)
  | emptyTable
  | emptyPool
  | zeroCount
  | seedOutOfRange (seed : Int)
  | unreadableSeed (text : String)
  | longNumeral (digits : Nat)
  | unwritableNumeral
  | blankSeed
  | blankBackend
  | blankPath
  | blankCount
  | blankText
  | unknownBackend (name : String)
  | unknownVariable (name : String)
  | noSuchMember
  | outOfReach (index : Nat)
  | tooWide
  | raggedColumns (count : Nat)
  deriving DecidableEq, Repr

namespace Fault

def kind : Fault → FaultKind
  | unknownVariable _ => .name
  | noSuchMember => .index
  | tooWide => .overflow
  | blankSeed | blankBackend | blankPath | blankCount | blankText => .blank
  | _ => .value

def listed (values : List Int) : String := Text.bracketed (values.map toString)

/-- The integers in the text of a fault that may have any number of digits. -/
def integers : Fault → List Int
  | emptyRange lo hi => [lo, hi]
  | noIndices count => [count]
  | negativeWeights weights | negativeTable weights => weights
  | seedOutOfRange seed => [seed]
  | _ => []

/-- Why a decimal numeral is not read or not written. -/
def tooLong (what : String) : String :=
  s!"Exceeds the limit ({Text.Numeral.mostDigits} digits) for integer string conversion{what}; " ++
    "use sys.set_int_max_str_digits() to increase the limit"

def text : Fault → String
  | unknownUnary symbol => s!"Unknown unary operator: {Text.quoted symbol}"
  | unknownBinary symbol => s!"Unknown binary operator: {Text.quoted symbol}"
  | unknownAccess name => s!"Unknown variable method: {Text.quoted name}"
  | negativeShift => "negative shift count"
  | emptyRange lo hi => s!"Empty range [{lo}, {hi}]"
  | lowOutOfBounds => "low is out of bounds for int64"
  | highOutOfSignedBounds => "high is out of bounds for int64"
  | highOutOfUnsignedBounds => "high is out of bounds for uint64"
  | noIndices count => s!"Cannot draw an index from an empty set (n={count})"
  | negativeWeights weights =>
    s!"Weights must be non-negative integers, got {listed weights}"
  | negativeTable weights => s!"Weights must be non-negative: {listed weights}"
  | emptyTable => "Cannot build a weight table with no members"
  | emptyPool => "Cannot build a pool with no members"
  | zeroCount => "Cannot build a weighted pool with zero total count"
  | seedOutOfRange seed => s!"Seed must be a 64-bit unsigned integer, got {seed}"
  | unreadableSeed text => s!"RVS_SEED must be an integer, got {Text.quoted text}"
  | longNumeral digits => tooLong s!": value has {digits} digits"
  | unwritableNumeral => tooLong ""
  | blankSeed => "int() argument must be a string, a bytes-like object or a real number, not 'list'"
  | blankBackend => "unhashable type: 'list'"
  | blankPath => "expected str, bytes or os.PathLike object, not list"
  | blankCount => "'list' object cannot be interpreted as an integer"
  | blankText => "the JSON object must be str, bytes or bytearray, not list"
  | unknownBackend name => s!"Unknown random backend '{name}'. Available: pcg64, philox"
  | unknownVariable name => s!"Variable '{name}' not found in model."
  | noSuchMember => "list index out of range"
  | outOfReach index => s!"variable {index} is not available here"
  | tooWide => "Python int too large to convert to C long"
  | raggedColumns count =>
    "setting an array element with a sequence. The requested array has an inhomogeneous shape " ++
      s!"after 1 dimensions. The detected shape was ({count},) + inhomogeneous part."

/-- The text of a fault, or the refusal to write it. -/
def message (fault : Fault) : String :=
  if fault.integers.all Text.Numeral.isWritable then fault.text else tooLong ""

end Fault

end Stimulus
