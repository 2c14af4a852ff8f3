import Stimulus.Json.Printer
import Stimulus.Text.Numeral
import Stimulus.Trace.Symbol
import Stimulus.Trace.Table
import Stimulus.Word

/-!
# Exports of a trace

Three texts for test benches: a value change dump, a list of records, and memory words. Dumps and
words show values modulo `2 ^ 32`. A dump whose times are too long to be written is refused.
-/
namespace Stimulus.Trace

/-- The word of a value, as a number. -/
def wordOf (value : Int) : Nat := (Word.wrap value).toNat

/-! ## Value change dumps -/

/-- A name with the symbols of its two signals. -/
structure Signal where
  name : String
  valueSymbol : String
  doneSymbol : String

/-- The signals of the name at place `i`. -/
def Signal.at (i : Nat) (name : String) : Signal :=
  ⟨name, symbol (2 * i), symbol (2 * i + 1)⟩

def signals (names : List String) : List Signal :=
  names.zipIdx.map fun (name, i) => .at i name

/-- The signals under which the changes of a name are written: those of its last mention. -/
def signalOf (names : List String) (name : String) : Signal :=
  ((signals names).reverse.find? (·.name == name)).getD (.at 0 name)

/-- The changes of a name from one reading to the next; at first everything is a change. -/
def changesOf (signal : Signal) (before? : Option Reading) (now : Reading) : List String :=
  let value :=
    if before?.map (·.value) = some now.value then []
    else [s!"b{Text.Numeral.binary (wordOf now.value)} {signal.valueSymbol}"]
  let done :=
    if before?.map (·.done) = some now.done then []
    else [(if now.done then "1" else "0") ++ signal.doneSymbol]
  value ++ done

/-- The changes of all names at a place of their histories. -/
def changesAt (columns : List (Signal × Array Reading)) (place : Nat) : List String :=
  columns.flatMap fun (signal, history) =>
    match history[place]? with
    | none => []
    | some now => changesOf signal (if place = 0 then none else history[place - 1]?) now

/-- The part of a dump at one time; a time without changes is left out. -/
def dumpAt (columns : List (Signal × Array Reading)) (period : Int) (place : Nat) : String :=
  let changes := changesAt columns place
  if changes.isEmpty then ""
  else s!"#{(place : Int) * period}\n" ++ "\n".intercalate changes ++ "\n"

def signalText (signal : Signal) : String :=
  s!"$var wire {Word.bits} {signal.valueSymbol} {signal.name} $end\n" ++
    s!"$var wire 1 {signal.doneSymbol} {signal.name}_done $end\n"

/-- The dump's head: the date, the unit of time, and the signals. -/
def dumpHead (date : String) (names : List String) : String :=
  s!"$date\n  {date}\n$end\n" ++
    "$version\n  rvs stimulus trace\n$end\n" ++
    "$timescale\n  1ns\n$end\n" ++
    "$scope module rvs $end\n" ++
    String.join ((signals names).map signalText) ++
    "$upscope $end\n" ++
    "$enddefinitions $end\n"

/-- The histories of all names with the signals that they are dumped under. -/
def dumpColumns (t : Trace) : List (Signal × Array Reading) :=
  t.names.map fun name => (signalOf t.names name, (t.history name).toArray)

/-- The value change dump: a wire of 32 bits and one of a single bit for every name. -/
def dump (t : Trace) (date : String) (period : Int) : String :=
  dumpHead date t.names ++
    String.join ((List.range t.size).map (dumpAt t.dumpColumns period))

/-- Whether every time with changes can be written. -/
def hasWritableTimes (t : Trace) (period : Int) : Bool :=
  (List.range t.size).all fun place =>
    Text.Numeral.isWritable ((place : Int) * period) || (changesAt t.dumpColumns place).isEmpty

/-- The value change dump, if it can be written. -/
def dump? (t : Trace) (date : String) (period : Int) : Except Fault String :=
  if t.hasWritableTimes period then .ok (t.dump date period) else .error .unwritableNumeral

/-- The time between two samples in a dump, in nanoseconds. -/
def defaultPeriod : Int := 10

/-! ## Records and memory words -/

/-- The records as a document. -/
def recordText (t : Trace) : String :=
  Json.indented 0 (.arr (t.records.map .obj))

/-- A line of memory words. -/
def memoryLine (words : List String) : String := " ".intercalate words ++ "\n"

/-- One line of words a sample, behind a comment with the names. -/
def memoryText (t : Trace) : String :=
  let columns := t.columns
  "// " ++ memoryLine t.names ++
    String.join ((List.range t.size).map fun place =>
      memoryLine ((rowAt columns place).map fun (_, reading) =>
        Text.Numeral.hexWord (wordOf reading.value)))

end Stimulus.Trace
