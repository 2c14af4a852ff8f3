import Stimulus.Command.Host

/-!
# Sessions

A command on a disk that is a plain value. The session afterwards holds the disk, the lines of
output, and the lines of messages.
-/
namespace Stimulus.Command

structure Session where
  disk : Disk := {}
  output : Array String := #[]
  messages : Array String := #[]
  deriving DecidableEq, Repr

namespace Session

/-- Writes a file on the disk of a session. -/
def write (path text : String) : StateM Session (Except FileFault Unit) := fun s =>
  match s.disk.write path text with
  | .error fault => (.error fault, s)
  | .ok disk => (.ok (), { s with disk })

/-- The host whose effects are on a session. -/
def host (environment : Settings.Environment) (date : String) : Host (StateM Session) where
  environment := pure environment
  date := pure date
  read path := fun s => (s.disk.read path, s)
  write := write
  print line := modify fun s => { s with output := s.output.push line }
  report line := modify fun s => { s with messages := s.messages.push line }

/-- The outcome of a command line on a disk, with the session afterwards. -/
def invoke (environment : Settings.Environment) (date : String) (disk : Disk)
    (words : List String) : Outcome × Session :=
  Id.run (((host environment date).invoke words).run { disk })

/-- The text of lines, each with its end. -/
def text (lines : Array String) : String := String.join (lines.toList.map fun line => line ++ "\n")

end Session

end Stimulus.Command
