import Stimulus.Model.Cycle

/-!
# Traces

A trace samples some variables of a model after its cycles. A sample holds the number of the cycle
and the reading of every name of the trace, in the order of the names.
-/
namespace Stimulus

open Stimulus.Sampling

structure Sample where
  cycle : Nat
  readings : List Reading
  deriving DecidableEq, Repr

namespace Sample

/-- The readings of a name, one for each of its mentions among the names of the trace. -/
def readingsOf (s : Sample) (names : List String) (name : String) : List Reading :=
  ((names.zip s.readings).filter fun (n, _) => n == name).map Prod.snd

end Sample

structure Trace where
  names : List String
  samples : Array Sample := #[]

namespace Trace

/-- The first of some names that no variable of a model has. -/
def unknownName? (m : Model) (names : List String) : Option String :=
  names.find? fun name => (m.scope.index? name).isNone

/-- A trace of the given variables of a model, or of all of them. -/
def start (m : Model) (names? : Option (List String)) : Except Fault Trace :=
  let names := names?.getD m.names
  match unknownName? m names with
  | some name => .error (.unknownVariable name)
  | none => .ok { names }

/-- The reading of a variable of the model; names of a trace are names of variables. -/
def readingOf (m : Model) (name : String) : Reading :=
  match m.reading name with
  | .ok reading => reading
  | .error _ => ⟨0, false⟩

/-- Adds a sample of the model as it is. -/
def record (t : Trace) (m : Model) : Trace :=
  { t with samples := t.samples.push ⟨m.cycle, t.names.map (readingOf m)⟩ }

def size (t : Trace) : Nat := t.samples.size

def times (t : Trace) : List Nat := t.samples.toList.map (·.cycle)

/-- All readings of a name, in the order of the samples. A name that the trace has twice has two
readings in every sample. -/
def history (t : Trace) (name : String) : List Reading :=
  t.samples.toList.flatMap fun s => s.readingsOf t.names name

/-- The histories of all names. -/
def columns (t : Trace) : List (String × Array Reading) :=
  t.names.map fun name => (name, (t.history name).toArray)

/-- The readings of all names at a place of their histories. -/
def rowAt (columns : List (String × Array Reading)) (place : Nat) : List (String × Reading) :=
  columns.filterMap fun (name, history) => history[place]?.map fun reading => (name, reading)

/-- A run of cycles: what ended it, if it failed, and the model and the trace after it. -/
structure Run where
  error? : Option Error
  model : Model
  trace : Trace

/-- Runs cycles and samples the model after each. A cycle that fails ends the run. -/
def run (t : Trace) (m : Model) : Nat → Run
  | 0 => ⟨none, m, t⟩
  | cycles + 1 =>
    let r := m.advance
    match r.outcome with
    | .error error => ⟨some error, r.model, t⟩
    | .ok _ => run (t.record r.model) r.model cycles

end Trace

end Stimulus
