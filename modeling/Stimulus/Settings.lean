import Stimulus.Random.Source
import Stimulus.Text.LowerCase
import Stimulus.Text.Numeral

/-!
# Settings

The seed and the generator of a model. Defaults are overlaid by the environment, and the
environment by what a caller asks for.
-/
namespace Stimulus

open Stimulus.Random

structure Settings where
  seed : UInt64 := 0
  backend : Backend := .philox
  deriving DecidableEq, Repr

namespace Settings

/-- Settings from a seed and the name of a generator. The seed is checked first. -/
def ofNames (seed : Int) (backendName : String) : Except Fault Settings := do
  let seed ← checkedSeed seed
  return { seed, backend := ← Backend.ofName backendName }

/-- Replaces what is given. -/
def override (s : Settings) (seed? : Option Int) (backendName? : Option String) :
    Except Fault Settings :=
  ofNames (seed?.getD s.seed.toNat) (backendName?.getD s.backend.name)

/-- The two values of the environment that settings are read from. -/
structure Environment where
  seed? : Option String := none
  backend? : Option String := none

/-- An empty value of the environment counts as absent. -/
def given (value? : Option String) : Option String := value?.filter (!·.isEmpty)

def readSeed (text : String) : Except Fault Int :=
  match Text.Numeral.marked? text with
  | some seed => .ok seed
  | none => .error (.unreadableSeed text)

/-- The defaults overlaid by the environment. Names of generators are read without the white space
around them and in lower case. -/
def ofEnvironment (env : Environment) : Except Fault Settings := do
  let seed? ← (given env.seed?).mapM readSeed
  let backendName? := (given env.backend?).map fun name => Text.lower (Text.strip name)
  override {} seed? backendName?

def source (s : Settings) : Source := .ofSeed s.backend s.seed

end Settings

end Stimulus
