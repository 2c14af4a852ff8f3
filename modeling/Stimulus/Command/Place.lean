/-!
# Places

The directories that a path can pass through: those below the working directory, and those of the
system around it. Of the system only its outline is known: the directories under its root, and
three devices. The working directory is one of the temporary directories.
-/
namespace Stimulus.Command

/-- The steps from a directory to another or to a file. -/
abbrev Location := List String

/-- A directory, by the steps from the working directory or from the root. -/
inductive Place
  | inside (location : Location)
  | outside (location : Location)
  deriving DecidableEq, Repr

namespace Place

def workingDirectory : Place := .inside []

def root : Place := .outside []

/-- The directory of the temporary directories. -/
def temporary : Place := .outside ["tmp"]

/-- The directory above. Above the root is the root. -/
def parent : Place → Place
  | .inside [] => temporary
  | .inside location => .inside location.dropLast
  | .outside location => .outside location.dropLast

end Place

/-- Files of the system that keep nothing of what is written: one is empty, one has zeros without
end, and one has them too but never has space for a text. -/
inductive Device
  | null
  | zero
  | full
  deriving DecidableEq, Repr

namespace Device

/-- The device at the steps from the root. -/
def at? : Location → Option Device
  | ["dev", "null"] => some null
  | ["dev", "zero"] => some zero
  | ["dev", "full"] => some full
  | _ => none

end Device

/-- The directories under the root. -/
def rootNames : List String :=
  ["bin", "boot", "dev", "etc", "home", "lib", "media", "mnt", "opt", "proc", "root", "run",
    "sbin", "srv", "sys", "tmp", "usr", "var"]

/-- Whether the outline of the system has a directory at the steps from the root. -/
def isSystemDirectory : Location → Bool
  | [] => true
  | [name] => rootNames.contains name
  | _ => false

end Stimulus.Command
