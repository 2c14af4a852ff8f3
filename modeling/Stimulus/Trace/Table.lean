import Stimulus.Trace.Basic

/-!
# Tables of a trace

A trace as tables with a row for every place of the histories and a column for every name, and as
records with a field for every name.
-/
namespace Stimulus.Trace

open Stimulus.Sampling

/-- A table with its number of rows and columns; a table without names has no rows to count. -/
structure Table (α : Type) where
  shape : List Nat
  rows : List (List α)

/-- The rows of columns of one length. -/
def transpose {α : Type} (height : Nat) (columns : List (List α)) : List (List α) :=
  (List.range height).map fun i => columns.filterMap (·[i]?)

/-- The table of one part of the readings. Names with unequal numbers of readings have none. -/
def table {α : Type} (t : Trace) (part : Reading → α) : Except Fault (Table α) :=
  if t.samples.isEmpty then .ok ⟨[0, t.names.length], []⟩
  else
    let columns := t.names.map fun name => (t.history name).map part
    match columns with
    | [] => .ok ⟨[0], []⟩
    | first :: rest =>
      if rest.all (·.length == first.length) then
        .ok ⟨[first.length, t.names.length], transpose first.length columns⟩
      else .error (.raggedColumns t.names.length)

/-- The values, which have to be signed numbers of 64 bits. -/
def valueTable (t : Trace) : Except Fault (Table Int) := do
  let table ← t.table (·.value)
  if table.rows.all (·.all isSigned) then return table else throw .tooWide

def doneTable (t : Trace) : Except Fault (Table Bool) := t.table (·.done)

/-- The record of a place: the cycle of the sample, and the value of every name. A later field of
the same name takes the place of an earlier one. -/
def recordOf (cycle : Nat) (row : List (String × Reading)) : List (String × Json) :=
  row.foldl (fun fields (name, reading) => Json.putField name (.int reading.value) fields)
    [("cycle", .int cycle)]

/-- The records of all samples. -/
def records (t : Trace) : List (List (String × Json)) :=
  let columns := t.columns
  t.samples.toList.zipIdx.map fun (s, i) => recordOf s.cycle (rowAt columns i)

end Stimulus.Trace
