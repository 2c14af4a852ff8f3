import Stimulus.Command.Disk
import Stimulus.Command.Request
import Stimulus.Document.Text
import Stimulus.Log
import Stimulus.Model.Compile
import Stimulus.Model.Cycle
import Stimulus.Trace.Export

/-!
# Scripts

A script is what a command does, as a list of actions with an ending. It is made from a request
and from what the request reads, without doing any of it: the environment, the text of the forest's
file if a path is given, and the date.
-/
namespace Stimulus.Command

open Stimulus.Sampling

inductive Action
  | print (line : String)
  | log (entry : Log.Entry)
  | write (path text : String)

/-- What ends a command before it is done. -/
inductive Problem
  | error (error : Error)
  | file (fault : FileFault)

namespace Problem

/-- What a command says of a problem. Only faults of values are told to the user; the other faults
of basic operations are passed on to the caller. -/
def message? : Problem → Option String
  | file fault => some fault.message
  | error (.fault fault) => if fault.kind = .value then some fault.message else none
  | error e => e.diagnostic?.map fun d => s!"{d.kind.family.label} error: {d.render}"

end Problem

/-- The actions so far, and a value or the problem that ended them. -/
abbrev Script := ExceptT Problem (StateM (Array Action))

namespace Script

def act (action : Action) : Script Unit := modify (·.push action)

def print (line : String) : Script Unit := act (.print line)

def log (entry : Log.Entry) : Script Unit := act (.log entry)

/-- Goes on with a value, or ends with an error. -/
def expect {ε α : Type} (wrap : ε → Error) : Except ε α → Script α
  | .ok value => pure value
  | .error e => throw (.error (wrap e))

/-- Goes on with a part of the task, or ends where its value is missing. -/
def need {α : Type} (fault : Fault) : Option α → Script α
  | some value => pure value
  | none => throw (.error (.fault fault))

/-- Goes on with what may be given, or ends where its value is missing. -/
def optional {α : Type} (fault : Fault) : Given α → Script (Option α)
  | .nothing => pure none
  | .blank => throw (.error (.fault fault))
  | .value value => pure (some value)

/-- The actions of a script, with its value or the problem that ended it. -/
def result {α : Type} (s : Script α) : Except Problem α × List Action :=
  let (outcome, actions) := Id.run (s.run #[])
  (outcome, actions.toList)

end Script

/-- What a request reads. -/
structure Inputs where
  environment : Settings.Environment
  forestText? : Option (Except FileFault String)
  date : String

/-! ## Models -/

/-- The forest in a file. Messages show the file's plain path. -/
def loadForest (inputs : Inputs) (path? : Option String) : Script Forest := do
  let path ← Script.need .blankPath path?
  match ← Script.need .blankPath inputs.forestText? with
  | .error fault => throw (.file fault)
  | .ok text => .expect id (Document.loadForest (Path.plain path) text)

/-- The settings of a command: those of the environment, overlaid by its options. The seed is
checked before the name of the generator. -/
def chooseSettings (inputs : Inputs) (source : ModelSource) : Script Settings := do
  let settings ← Script.expect .fault (Settings.ofEnvironment inputs.environment)
  Script.log (.settingsRead settings)
  let seed? ← Script.optional .blankSeed source.seed
  let settings ← Script.expect .fault (settings.override seed? none)
  let backend? ← Script.optional .blankBackend source.backend
  Script.expect .fault (settings.override none backend?)

/-- The model of a command, with its settings. -/
def buildModel (inputs : Inputs) (source : ModelSource) : Script (Model × Settings) := do
  let settings ← chooseSettings inputs source
  let forest ← loadForest inputs source.forest?
  let model ← Script.expect id (Model.compile settings forest)
  Script.log (.compiled model.cells.size forest.enums.length settings)
  return (model, settings)

/-- Logs the refills of an operation on a model. -/
def logRefills (refills : Array Refill) : Script Unit :=
  refills.toList.forM fun refill => Script.log (.refilled refill)

/-! ## Cycles -/

/-- A reading as it is shown: a star marks that it is done. -/
def readingText (name : String) (reading : Reading) : String :=
  let star := if reading.done then "*" else ""
  s!"{name}={reading.value}{star}"

/-- A number, with spaces before it up to a width of six. -/
def numberText (n : Nat) : String :=
  let digits := toString n
  String.ofList (List.replicate (6 - digits.length) ' ') ++ digits

/-- The line of a completed cycle. -/
def cycleLine (m : Model) : String :=
  let row := "  ".intercalate ((m.names.zip m.readings).map fun (name, r) => readingText name r)
  s!"[{numberText m.cycle}] {row}"

/-- The log entry of a cycle that did not complete, if it was an evaluation that failed. -/
def failedCycle? (m : Model) : Error → Option Log.Entry
  | .evaluation e => some (.cycleFailed m.cycle (e.variableName?.getD "") e.cause.text)
  | _ => none

/-- Steps a model by one cycle. -/
def advance (m : Model) : Script Model := do
  let r := m.advance
  logRefills r.refills
  match r.outcome with
  | .error error =>
    (failedCycle? m error).forM Script.log
    throw (.error error)
  | .ok _ =>
    Script.log (.cycleComplete r.model.cycle)
    return r.model

/-- Runs cycles, samples the model after each, and shows each unless quiet. -/
def runCycles (quiet : Bool) (m : Model) (t : Trace) : Nat → Script Trace
  | 0 => return t
  | cycles + 1 => do
    let m ← advance m
    if !quiet then Script.print (cycleLine m)
    runCycles quiet m (t.record m) cycles

/-! ## Exports -/

/-- An option with an empty value names no file. -/
def named? (path? : Option String) : Option String := path?.filter (!·.isEmpty)

def exportDump (t : Trace) (date path : String) : Script Unit := do
  Script.log (.exporting t.size path)
  Script.act (.write path (t.dump date Trace.defaultPeriod))
  Script.print s!"VCD written to {path}"

def exportRecords (t : Trace) (path : String) : Script Unit := do
  Script.act (.write path t.recordText)
  Script.log (.saved t.size path)
  Script.print s!"JSON written to {path}"

def exportMemory (t : Trace) (path : String) : Script Unit := do
  Script.act (.write path t.memoryText)
  Script.log (.saved t.size path)
  Script.print s!"MEM written to {path}"

/-- Writes the files that were asked for. -/
def exportAll (t : Trace) (date : String) (exports : Exports) : Script Unit := do
  (named? exports.dump?).forM (exportDump t date)
  (named? exports.records?).forM (exportRecords t)
  (named? exports.memory?).forM (exportMemory t)

/-! ## Commands -/

/-- Compiles a forest, runs cycles, and writes the trace. A negative number of cycles is none. -/
def run (inputs : Inputs) (source : ModelSource) (cycles? : Option Int) (quiet : Bool)
    (exports : Exports) : Script Unit := do
  let (model, settings) ← buildModel inputs source
  let path ← Script.need .blankPath source.forest?
  Script.print
    (s!"Compiled {model.cells.size} variables from {path} " ++
      s!"({settings.backend.name}, seed={settings.seed.toNat})")
  let start ← Script.expect .fault (Trace.start model none)
  let cycles ← Script.need .blankCount cycles?
  let trace ← runCycles quiet model start cycles.toNat
  Script.print s!"[SUCCESS] {cycles} cycles complete."
  exportAll trace inputs.date exports

def itemText (item : EnumItem) : String :=
  match item.value? with
  | none => item.name
  | some value => s!"{item.name} = {value}"

/-- An enumeration as it is shown. -/
def enumLine (d : EnumDecl) : String :=
  let items := ", ".intercalate (d.items.map itemText)
  s!"enum {d.name} \x7b {items} \x7d"

/-- Shows the declarations of a forest, which need not make sense together. -/
def list (inputs : Inputs) (forest? : Option String) : Script Unit := do
  let forest ← loadForest inputs forest?
  forest.enums.forM fun d => Script.print (enumLine d)
  forest.declarations.forM fun d => Script.print d.text

/-- Evaluates an expression once on the model of a forest. -/
def once (inputs : Inputs) (source : ModelSource) (expr? : Option String) : Script Unit := do
  let (model, _) ← buildModel inputs source
  let expr ← Script.need .blankText expr?
  let document ← Script.expect id (Document.read "--expr" expr)
  let expr ← Script.expect .format (Document.decodeExpr "expr" document)
  let r := model.evaluateOnce expr
  logRefills r.refills
  let value ← Script.expect id r.outcome
  Script.print (toString value)

namespace Task

/-- The path of the forest that a task reads. -/
def forest? : Task → Option String
  | run source .. => source.forest?
  | list forest? => forest?
  | once source _ => source.forest?

/-- What a task does. -/
def script (inputs : Inputs) : Task → Script Unit
  | run source cycles? quiet exports => Command.run inputs source cycles? quiet exports
  | list forest? => Command.list inputs forest?
  | once source expr? => Command.once inputs source expr?

end Task

end Stimulus.Command
