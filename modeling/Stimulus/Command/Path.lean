import Stimulus.Text.Quoted

/-!
# Paths of files

The parts of a path between its slashes, the plain form in which a path is shown, the size of a
path as it is stored, and the lone surrogates in it that no file system can store.
-/
namespace Stimulus.Command.Path

def parts (path : String) : List String := path.splitOn "/"

/-- The slashes that an absolute path begins with: one, or exactly two. -/
def root (path : String) : String :=
  match (path.toList.takeWhile (· == '/')).length with
  | 0 => ""
  | 2 => "//"
  | _ => "/"

/-- The parts that tell where a path leads: no empty ones, and none that stay where they are. -/
def steps (path : String) : List String := (parts path).filter fun part => part != "" && part != "."

/-- The path without parts that stay where they are. -/
def plain (path : String) : String :=
  let text := root path ++ "/".intercalate (steps path)
  if text.isEmpty then "." else text

/-- Whether a code point of a path can be stored. Characters can, and so can the halves of
surrogate pairs that stand for the bytes from 128 on. -/
def isStorable : Text.Point → Bool
  | .char _ => true
  | .half i => 0x480 ≤ i.val && i.val < 0x500

/-- The bytes that the file system stores for a code point of a path. -/
def pointSize : Text.Point → Nat
  | .char c => c.utf8Size
  | .half _ => 1

/-- The bytes that the file system stores for a path or a name. -/
def storedSize (path : String) : Nat :=
  (Text.points path.toList).foldl (fun size point => size + pointSize point) 0

/-- The most bytes of a name between two slashes. -/
def nameLimit : Nat := 255

/-- The most bytes of a path: a page of 4096 has to hold it and its end. -/
def pathLimit : Nat := 4095

/-- The first lone surrogates that cannot be stored, up to the next character, with their place. -/
def unstorable? (path : String) : Option (Nat × List Text.Point) :=
  let points := Text.points path.toList
  let start := (points.takeWhile isStorable).length
  let halves := (points.drop start).takeWhile (·.isHalf)
  if halves.isEmpty then none else some (start, halves)

end Stimulus.Command.Path
