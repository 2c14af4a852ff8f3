import Stimulus.Sampling.Draw
import Stimulus.Settings

/-!
# Log entries

What a command tells of its work besides its output. Every entry has a level, and a command shows
the levels that it was asked for.
-/
namespace Stimulus.Log

open Stimulus.Sampling

inductive Level
  | info
  | debug
  deriving DecidableEq, Repr

namespace Level

def label : Level → String
  | info => "INFO"
  | debug => "DEBUG"

/-- How often a user has to ask for more messages before a level is shown. -/
def verbosity : Level → Nat
  | info => 1
  | debug => 2

end Level

inductive Entry
  | settingsRead (settings : Settings)
  | compiled (cells enums : Nat) (settings : Settings)
  | refilled (refill : Refill)
  | cycleComplete (cycle : Nat)
  | cycleFailed (completed : Nat) (variableName text : String)
  | exporting (cycles : Nat) (file : String)
  | saved (cycles : Nat) (file : String)

namespace Entry

def level : Entry → Level
  | compiled .. | exporting .. | saved .. => .info
  | _ => .debug

/-- The part of the program that an entry comes from. -/
def topic : Entry → String
  | settingsRead _ => "config"
  | compiled .. | cycleComplete _ | cycleFailed .. => "compiler"
  | refilled _ => "sampling"
  | exporting .. | saved .. => "monitor"

def refillText : Refill → String
  | .members count => s!"Pool exhausted, repopulating {count} members"
  | .copies count => s!"Weighted pool exhausted, repopulating {count} copies"

def text : Entry → String
  | settingsRead s =>
    s!"Engine config from environment: EngineConfig(seed={s.seed.toNat}, " ++
      s!"backend='{s.backend.name}')"
  | compiled cells enums s =>
    s!"Compiled {cells} variables ({enums} enums), {s.backend.name} seed={s.seed.toNat}"
  | refilled refill => refillText refill
  | cycleComplete cycle => s!"Cycle {cycle} complete"
  | cycleFailed completed name text => s!"Cycle {completed} failed at '{name}': {text}"
  | exporting cycles file => s!"Exporting {cycles} cycles to {file}"
  | saved cycles file => s!"Saved {cycles} cycles to {file}"

/-- The line of an entry. -/
def line (e : Entry) : String := s!"{e.level.label} rvs.{e.topic}: {e.text}"

def isShown (verbosity : Nat) (e : Entry) : Bool := e.level.verbosity ≤ verbosity

end Entry

end Stimulus.Log
