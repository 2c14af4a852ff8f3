import Stimulus.Command.FileFault
import Stimulus.Command.Path
import Stimulus.Command.Place

/-!
# Disks

Files under their paths, as far as a command sees them from its working directory. A directory
below the working directory is there if a file is in it. Outside of it, a file that is no device
is never found and can always be written, if its directory is there; nothing is kept of what is
written.

A path is followed name by name, and the first name that cannot be passed decides the fault. The
last name is looked up by the operation, which alone tells what a slash after it means.
-/
namespace Stimulus.Command

/-- Files with their texts. -/
structure Disk where
  files : List (Location × String) := []
  deriving DecidableEq, Repr

/-- What a name stands for in a directory. -/
inductive Entry
  | directory (place : Place)
  | file (location : Location)
  | device (device : Device)
  | free (place : Place)
  deriving DecidableEq, Repr

/-- Where a path leads: to a directory as such, or to a name in one, with or without a slash after
the name. -/
inductive Target
  | directory
  | name (place : Place) (name : String) (isSlashed : Bool)
  deriving DecidableEq, Repr

namespace Disk

/-- Puts files under plain relative paths. -/
def ofFiles (files : List (String × String)) : Disk :=
  ⟨files.map fun (path, text) => (Path.steps path, text)⟩

def text? (d : Disk) (location : Location) : Option String := d.files.lookup location

def isFile (d : Disk) (location : Location) : Bool := (d.text? location).isSome

def isDirectory (d : Disk) (location : Location) : Bool :=
  location.isEmpty || d.files.any fun (other, _) => location.isPrefixOf other && location != other

/-- What is at the steps from the working directory. -/
def entryInside (d : Disk) (location : Location) : Entry :=
  if d.isDirectory location then .directory (.inside location)
  else if d.isFile location then .file location
  else .free (.inside location)

/-- What is at the steps from the root. -/
def entryOutside (location : Location) : Entry :=
  if isSystemDirectory location then .directory (.outside location)
  else match Device.at? location with
    | some device => .device device
    | none => .free (.outside location)

/-- What a name stands for in a directory. -/
def lookUp (d : Disk) (place : Place) (name : String) : Except Refusal Entry :=
  if Path.nameLimit < Path.storedSize name then .error .nameTooLong
  else match place with
    | .inside here => .ok (d.entryInside (here ++ [name]))
    | .outside here => .ok (entryOutside (here ++ [name]))

/-- Follows the parts of a path from a directory. Every name but the last has to be the name of a
directory. -/
def follow (d : Disk) : Place → List String → Except Refusal Target
  | _, [] => .ok .directory
  | here, part :: rest =>
    if part = "" || part = "." then d.follow here rest
    else if part = ".." then d.follow here.parent rest
    else if rest.all (·.isEmpty) then .ok (.name here part (!rest.isEmpty))
    else match d.lookUp here part with
      | .ok (.directory place) => d.follow place rest
      | .ok (.free _) => .error .notFound
      | .ok (.file _) | .ok (.device _) => .error .notADirectory
      | .error refusal => .error refusal

/-- Where a path leads. -/
def target (d : Disk) (path : String) : Except Refusal Target :=
  if path = "" then .error .notFound
  else if Path.pathLimit < Path.storedSize path then .error .nameTooLong
  else d.follow (if path.startsWith "/" then .root else .workingDirectory) (Path.parts path)

/-- The fault of a path that can be the path of nothing. -/
def pathFault? (path : String) : Option FileFault :=
  match Path.unstorable? path with
  | some (start, halves) => some (.unstorable start halves)
  | none => if path.contains '\x00' then some .zeroCharacter else none

/-- What is there to be read. A slash after a name asks for a directory. -/
def readable (d : Disk) (path : String) : Except Refusal Entry := do
  match ← d.target path with
  | .directory => .error .isADirectory
  | .name place name isSlashed =>
    match ← d.lookUp place name with
    | .directory _ => .error .isADirectory
    | .free _ => .error .notFound
    | entry => if isSlashed then .error .notADirectory else .ok entry

/-- What is there to be written. A name with a slash after it is taken for a directory, whether it
is there or not. -/
def writable (d : Disk) (path : String) : Except Refusal Entry := do
  match ← d.target path with
  | .directory | .name _ _ true => .error .isADirectory
  | .name place name false =>
    match ← d.lookUp place name with
    | .directory _ => .error .isADirectory
    | entry => .ok entry

/-- The text of what is there to be read. Zeros without end have no place in memory. -/
def textOf (d : Disk) : Entry → Except FileFault String
  | .file location => .ok ((d.text? location).getD "")
  | .device .zero | .device .full => .error .outOfMemory
  | .device .null | .directory _ | .free _ => .ok ""

/-- The text of a file. -/
def read (d : Disk) (path : String) : Except FileFault String :=
  match pathFault? path with
  | some fault => .error fault
  | none =>
    match d.readable path with
    | .error refusal => .error (.refused refusal path)
    | .ok entry => d.textOf entry

/-- Puts a text under a location, in place of an earlier one. -/
def put (d : Disk) (location : Location) (text : String) : Disk :=
  ⟨d.files.filter (·.1 != location) ++ [(location, text)]⟩

/-- Writes a text to what is there to be written. -/
def putAt (d : Disk) (text : String) : Entry → Except FileFault Disk
  | .file location | .free (.inside location) => .ok (d.put location text)
  | .device .full => if text.isEmpty then .ok d else .error .outOfSpace
  | .device .null | .device .zero | .directory _ | .free (.outside _) => .ok d

/-- Writes a file. Its directory has to be there. -/
def write (d : Disk) (path text : String) : Except FileFault Disk :=
  match pathFault? path with
  | some fault => .error fault
  | none =>
    match d.writable path with
    | .error refusal => .error (.refused refusal path)
    | .ok entry => d.putAt text entry

/-- The files that are on a disk and not on an earlier one, under their relative paths. -/
def since (d before : Disk) : List (String × String) :=
  (d.files.filter fun (location, _) => !before.isFile location).map fun (location, text) =>
    ("/".intercalate location, text)

end Disk

end Stimulus.Command
