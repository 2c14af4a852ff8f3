import Stimulus.Command.Arguments
import Stimulus.Command.Script

/-!
# Hosts

A host gives a command what it reads and carries out its actions. The first file that cannot be
written ends the command there.
-/
namespace Stimulus.Command

/-- What a command needs of the system that it runs on, in a monad of the system's effects. -/
structure Host (m : Type → Type) where
  environment : m Settings.Environment
  date : m String
  read : String → m (Except FileFault String)
  write : String → String → m (Except FileFault Unit)
  print : String → m Unit
  report : String → m Unit

/-- How an invocation ends. A problem that is not told to the user is handed to the caller. -/
inductive Outcome
  | done
  | failed
  | stopped (stop : Stop)
  | escaped (fault : Fault)

namespace Host

section Operations

variable {m : Type → Type} [Monad m]

/-- Carries out an action. -/
def perform (host : Host m) (verbosity : Nat) : Action → m (Except FileFault Unit)
  | .print line => do
    host.print line
    return .ok ()
  | .log entry => do
    if entry.isShown verbosity then host.report entry.line
    return .ok ()
  | .write path text => host.write path text

/-- Carries out actions up to the first file that cannot be written. -/
def performAll (host : Host m) (verbosity : Nat) : List Action → m (Except FileFault Unit)
  | [] => return .ok ()
  | action :: rest => do
    match ← host.perform verbosity action with
    | .error fault => return .error fault
    | .ok () => host.performAll verbosity rest

/-- Tells a problem to the user, if it is one for the user. -/
def tell (host : Host m) (problem : Problem) : m Outcome := do
  match problem.message?, problem with
  | some message, _ =>
    host.report s!"[FAIL] {message}"
    return .failed
  | none, .error (.fault fault) => return .escaped fault
  | none, _ => return .failed

/-- Carries out a script to its end. -/
def carryOut (host : Host m) (verbosity : Nat) (script : Script Unit) : m Outcome := do
  let (ending, actions) := script.result
  match ← host.performAll verbosity actions with
  | .error fault => host.tell (.file fault)
  | .ok () =>
    match ending with
    | .ok () => return .done
    | .error problem => host.tell problem

/-- What a task reads from the host. -/
def inputs (host : Host m) (task : Task) : m Inputs := do
  let environment ← host.environment
  let forestText? ← task.forest?.mapM fun path => host.read (Path.plain path)
  return { environment, forestText?, date := ← host.date }

/-- Does what the words of a command line ask for. -/
def invoke (host : Host m) (words : List String) : m Outcome := do
  match readRequest words with
  | .error stop => return .stopped stop
  | .ok request =>
    let inputs ← host.inputs request.task
    host.carryOut request.verbosity (request.task.script inputs)

end Operations

end Host

end Stimulus.Command
