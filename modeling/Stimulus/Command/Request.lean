import Stimulus.Text.Numeral
import Stimulus.Text.Quoted

/-!
# Requests

What a user can ask for on the command line: options before the command, the command, and the
options of the command. Arguments that ask for nothing sensible are refused with a complaint.
-/
namespace Stimulus.Command

inductive Name
  | run
  | list
  | once
  deriving DecidableEq, Repr

namespace Name

def all : List Name := [run, list, once]

def text : Name → String
  | run => "run"
  | list => "show"
  | once => "once"

def ofText? (s : String) : Option Name := all.find? (·.text == s)

end Name

/-- The options. -/
inductive Key
  | help
  | verbose
  | forest
  | seed
  | backend
  | cycles
  | dump
  | records
  | memory
  | quiet
  | expr
  deriving DecidableEq, Repr

namespace Key

/-- The spellings of an option. -/
def names : Key → List String
  | help => ["-h", "--help"]
  | verbose => ["-v", "--verbose"]
  | forest => ["--forest"]
  | seed => ["--seed"]
  | backend => ["--backend"]
  | cycles => ["--cycles"]
  | dump => ["--vcd"]
  | records => ["--json"]
  | memory => ["--mem"]
  | quiet => ["-q", "--quiet"]
  | expr => ["--expr"]

/-- Whether a value belongs to an option; the other options stand for themselves. -/
def hasValue : Key → Bool
  | help | verbose | quiet => false
  | _ => true

def label (key : Key) : String := "/".intercalate key.names

end Key

/-- The two parts of the arguments: what stands before the command, and what stands behind it. -/
inductive Part
  | front
  | command (name : Name)
  deriving DecidableEq, Repr

namespace Part

/-- How a part is called in complaints. -/
def label : Part → String
  | front => "rvs"
  | command name => s!"rvs {name.text}"

/-- The options of a part, in the order in which they are told. -/
def keys : Part → List Key
  | front => [.help, .verbose]
  | command .run =>
    [.help, .forest, .seed, .backend, .cycles, .dump, .records, .memory, .quiet]
  | command .list => [.help, .forest]
  | command .once => [.help, .forest, .seed, .backend, .expr]

/-- The options that a part cannot do without. -/
def required : Part → List Key
  | front => []
  | command .once => [.forest, .expr]
  | command _ => [.forest]

end Part

/-- Why arguments are refused. -/
inductive Complaint
  | ambiguous (word : String) (matching : List String)
  | noValue (key : Key)
  | ignoredValue (key : Key) (value : String)
  | unreadable (key : Key) (value : String)
  | unknownCommand (word : String)
  | missing (keys : List Key)
  | leftOver (words : List String)
  deriving DecidableEq, Repr

namespace Complaint

/-- What the value of an option that takes numbers is called. -/
def valueKind : Key → String
  | .seed => "<lambda>"
  | _ => "int"

def text : Complaint → String
  | ambiguous word matching =>
    let list := ", ".intercalate matching
    s!"ambiguous option: {word} could match {list}"
  | noValue key => s!"argument {key.label}: expected one argument"
  | ignoredValue key value =>
    s!"argument {key.label}: ignored explicit argument {Text.quoted value}"
  | unreadable key value =>
    s!"argument {key.label}: invalid {valueKind key} value: {Text.quoted value}"
  | unknownCommand word =>
    let choices := ", ".intercalate (Name.all.map fun name => Text.quoted name.text)
    s!"argument command: invalid choice: {Text.quoted word} (choose from {choices})"
  | missing keys =>
    let list := ", ".intercalate (keys.map (·.label))
    s!"the following arguments are required: {list}"
  | leftOver words =>
    let list := " ".intercalate words
    s!"unrecognized arguments: {list}"

end Complaint

/-- Why there is no request in the arguments. -/
inductive Stop
  | help (part : Part)
  | noCommand
  | refused (part : Part) (complaint : Complaint)
  deriving DecidableEq, Repr

namespace Stop

/-- The line that is shown for arguments that are refused. -/
def line? : Stop → Option String
  | refused part complaint => some s!"{part.label}: error: {complaint.text}"
  | _ => none

end Stop

/-- What is given for an option with a value: nothing, the option and no value, or a value. -/
inductive Given (α : Type)
  | nothing
  | blank
  | value (a : α)
  deriving DecidableEq, Repr

namespace Given

variable {α : Type}

def isGiven : Given α → Bool
  | nothing => false
  | _ => true

def value? : Given α → Option α
  | value a => some a
  | _ => none

/-- The value, with a default where nothing is given, and none where the value is missing. -/
def valueOr (g : Given α) (default : α) : Option α :=
  match g with
  | nothing => some default
  | blank => none
  | value a => some a

end Given

/-- The values of all options. -/
structure Values where
  verbosity : Nat := 0
  forest : Given String := .nothing
  seed : Given Int := .nothing
  backend : Given String := .nothing
  cycles : Given Int := .nothing
  dump : Given String := .nothing
  records : Given String := .nothing
  memory : Given String := .nothing
  quiet : Bool := false
  expr : Given String := .nothing
  deriving DecidableEq, Repr

namespace Values

/-- Takes an option without a value. -/
def flag (key : Key) (v : Values) : Values :=
  match key with
  | .verbose => { v with verbosity := v.verbosity + 1 }
  | .quiet => { v with quiet := true }
  | _ => v

/-- Takes an option with a value, in place of an earlier one. The numbers are read here. -/
def put (key : Key) (value : String) (v : Values) : Except Complaint Values :=
  match key with
  | .forest => .ok { v with forest := .value value }
  | .seed =>
    match Text.Numeral.marked? value with
    | some seed => .ok { v with seed := .value seed }
    | none => .error (.unreadable key value)
  | .backend => .ok { v with backend := .value value }
  | .cycles =>
    match Text.Numeral.decimal? value with
    | some cycles => .ok { v with cycles := .value cycles }
    | none => .error (.unreadable key value)
  | .dump => .ok { v with dump := .value value }
  | .records => .ok { v with records := .value value }
  | .memory => .ok { v with memory := .value value }
  | .expr => .ok { v with expr := .value value }
  | _ => .ok v

/-- Takes an option whose value is missing, in place of an earlier one. -/
def putBlank (key : Key) (v : Values) : Values :=
  match key with
  | .forest => { v with forest := .blank }
  | .seed => { v with seed := .blank }
  | .backend => { v with backend := .blank }
  | .cycles => { v with cycles := .blank }
  | .dump => { v with dump := .blank }
  | .records => { v with records := .blank }
  | .memory => { v with memory := .blank }
  | .expr => { v with expr := .blank }
  | _ => v

/-- Whether a required option was given, with a value or without. -/
def has (v : Values) : Key → Bool
  | .forest => v.forest.isGiven
  | .expr => v.expr.isGiven
  | _ => true

end Values

/-- The model that a command works on: the path of its forest, if one is given, and its settings. -/
structure ModelSource where
  forest? : Option String
  seed : Given Int
  backend : Given String
  deriving DecidableEq, Repr

/-- The files that the trace of a run is written to. -/
structure Exports where
  dump? : Option String
  records? : Option String
  memory? : Option String
  deriving DecidableEq, Repr

/-- What a command is to do. A part that is `none` was asked for without its value; the command
finds that out where it needs the part. -/
inductive Task
  | run (source : ModelSource) (cycles? : Option Int) (quiet : Bool) (exports : Exports)
  | list (forest? : Option String)
  | once (source : ModelSource) (expr? : Option String)
  deriving DecidableEq, Repr

structure Request where
  verbosity : Nat
  task : Task
  deriving DecidableEq, Repr

namespace Values

def defaultCycles : Int := 10

/-- The task of a command, once its required options are there. -/
def task (name : Name) (v : Values) : Task :=
  let source := { forest? := v.forest.value?, seed := v.seed, backend := v.backend }
  match name with
  | .run =>
    .run source (v.cycles.valueOr defaultCycles) v.quiet
      { dump? := v.dump.value?, records? := v.records.value?, memory? := v.memory.value? }
  | .list => .list source.forest?
  | .once => .once source v.expr.value?

end Values

end Stimulus.Command
