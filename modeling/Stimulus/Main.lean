import Std.Time.Format
import Std.Time.Zoned
import Stimulus.Command.Host

/-!
# The program

The command line on the files, the environment, and the standard streams of the system.
-/
namespace Stimulus.Command

/-- The fault of an operation on a file. -/
def FileFault.ofError (path : String) : IO.Error → FileFault
  | .noFileOrDirectory .. => .refused .notFound path
  | .inappropriateType _ 21 _ => .refused .isADirectory path
  | .inappropriateType .. => .refused .notADirectory path
  | .invalidArgument _ 36 _ => .refused .nameTooLong path
  | .resourceExhausted _ 12 _ => .outOfMemory
  | .resourceExhausted _ 28 _ => .outOfSpace
  | e => .other (toString e)

/-- The outcome of an operation on a file. -/
def onFile {α : Type} (path : String) (operation : IO α) : IO (Except FileFault α) := do
  match ← operation.toBaseIO with
  | .ok value => return .ok value
  | .error e => return .error (.ofError path e)

def currentDate : IO String := do
  let now ← Std.Time.PlainDateTime.now
  return now.format "uuuu-MM-dd HH:mm:ss"

/-- The value of an environment variable. -/
def environmentText? (name : String) : IO (Option String) := do
  return (← IO.getEnv name).map Text.ofPlain

/-- The system that the program runs on. All texts that come from it are of characters alone. -/
def Host.system : Host IO where
  environment := do
    return { seed? := ← environmentText? "RVS_SEED"
             backend? := ← environmentText? "RVS_BACKEND" }
  date := currentDate
  read path := onFile path do return Text.ofPlain (← IO.FS.readFile (Text.toPlain path))
  write path text := onFile path (IO.FS.writeFile (Text.toPlain path) (Text.toPlain text))
  print line := IO.println (Text.toPlain line)
  report line := IO.eprintln (Text.toPlain line)

/-- How the program is called. -/
def usage : String :=
  "usage: rvs [-h] [-v] [run | show | once] ...\n" ++
    "  run  --forest FILE [--cycles N] [--seed N] [--backend NAME]\n" ++
    "       [--vcd FILE] [--json FILE] [--mem FILE] [-q]\n" ++
    "  show --forest FILE\n" ++
    "  once --forest FILE --expr JSON [--seed N] [--backend NAME]"

/-- The exit code of an outcome, once the user is told of what the command did not tell. -/
def finish : Outcome → IO UInt32
  | .done => return 0
  | .failed => return 1
  | .escaped fault => do
    IO.eprintln (Text.toPlain fault.message)
    return 1
  | .stopped (.help _) => do
    IO.println usage
    return 0
  | .stopped stop => do
    match stop.line? with
    | some line => IO.eprintln (Text.toPlain line)
    | none => IO.println usage
    return 2

end Stimulus.Command

def main (words : List String) : IO UInt32 := do
  Stimulus.Command.finish
    (← Stimulus.Command.Host.system.invoke (words.map Stimulus.Text.ofPlain))
