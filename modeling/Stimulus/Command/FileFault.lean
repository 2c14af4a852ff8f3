import Stimulus.Text.Quoted

/-!
# Faults of files

Why a file cannot be read or written, and how a user is told. The path in a message is the one
that was asked for.
-/
namespace Stimulus.Command

/-- Why the system refuses to open a path. -/
inductive Refusal
  | notFound
  | notADirectory
  | isADirectory
  | nameTooLong
  deriving DecidableEq, Repr

/-- The number and the wording of a refusal. -/
def Refusal.text : Refusal → String
  | notFound => "[Errno 2] No such file or directory"
  | notADirectory => "[Errno 20] Not a directory"
  | isADirectory => "[Errno 21] Is a directory"
  | nameTooLong => "[Errno 36] File name too long"

inductive FileFault
  | refused (refusal : Refusal) (path : String)
  | unstorable (start : Nat) (halves : List Text.Point)
  | zeroCharacter
  | outOfMemory
  | outOfSpace
  | other (text : String)
  deriving DecidableEq, Repr

def FileFault.message : FileFault → String
  | refused refusal path => s!"{refusal.text}: {Text.quoted path}"
  | unstorable start [half] =>
    s!"'utf-8' codec can't encode character {Text.quoted (Text.ofPoints [half])} " ++
      s!"in position {start}: surrogates not allowed"
  | unstorable start halves =>
    s!"'utf-8' codec can't encode characters in position {start}-{start + halves.length - 1}: " ++
      "surrogates not allowed"
  | zeroCharacter => "embedded null byte"
  | outOfMemory => "[Errno 12] Cannot allocate memory"
  | outOfSpace => "[Errno 28] No space left on device"
  | other text => text

end Stimulus.Command
