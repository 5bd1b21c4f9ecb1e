/-!
# Where snapshots are kept

A name becomes the path of a file in the directory of the snapshots, and a path leads to a place
among the folders. Two names with different paths can lead to one place, as `b` and `./b` do, so
contents are kept by place and not by name.

## Implementation notes

The only folders known to exist are those passed on the way to the directory itself. A path leads
nowhere as soon as it enters another folder, even if it leaves it again: `x/../b` is not `b` unless
there is a folder `x`.
-/

namespace PegGrammar.Snapshot

/-! ### Parts of a path -/

/-- A part of a path, between two slashes. -/
abbrev Part := List Char

/-- The first part of a path, and the parts after it. -/
def splitSlash : List Char → Part × List Part
  | [] => ([], [])
  | c :: cs =>
    let (first, rest) := splitSlash cs
    if c = '/' then ([], first :: rest) else (c :: first, rest)

/-- The parts of a path that are left after the last one is taken off, and the last one. -/
def foldersAndFile (path : String) : List Part × Part :=
  let (first, rest) := splitSlash path.toList
  ((first :: rest).dropLast, (first :: rest).getLast (List.cons_ne_nil first rest))

/-- Whether a path starts at the root of all folders. -/
def isAbsolute (path : String) : Bool := path.toList.head? == some '/'

/-! ### Walking along a path -/

/-- A place among the folders: the names that lead to it from where paths start, the innermost
first. -/
abbrev Place := List Part

/-- The folder that a part of a path leads to. An empty part and a single dot stay, and two dots
leave the folder; nothing is known above the place where paths start. -/
def enter (here : Place) (part : Part) : Option Place :=
  if part = [] ∨ part = ['.'] then some here
  else if part = ['.', '.'] then
    match here with
    | [] => none
    | _ :: parent => some parent
  else some (part :: here)

/-- The folders passed on a walk from a folder, as far as it leads. -/
def trail (here : Place) : List Part → List Place
  | [] => [here]
  | part :: parts =>
    match enter here part with
    | none => [here]
    | some there => here :: trail there parts

/-- Where a walk from a folder ends, if all the folders on it are known. -/
def walk? (known : List Place) (here : Place) : List Part → Option Place
  | [] => some here
  | part :: parts =>
    match enter here part with
    | none => none
    | some there => if known.contains there then walk? known there parts else none

/-! ### Files -/

/-- The longest name of a file, in bytes. -/
def maxNameSize : Nat := 255

/-- The longest path, in bytes. -/
def maxPathSize : Nat := 4095

/-- Whether a path can belong to a file of this name at all: both are short enough, and there is no
NUL in them. -/
def isUsable (path : String) (file : Part) : Bool :=
  path.utf8ByteSize ≤ maxPathSize && (String.ofList file).utf8ByteSize ≤ maxNameSize
    && !path.toList.contains '\x00'

/-- The place of the file that a path leads to, if only the folders on the way to a directory are
known. -/
def locate? (directory path : String) : Option Place :=
  let (folders, file) := foldersAndFile path
  let (first, rest) := splitSlash directory.toList
  if isUsable path file && isAbsolute path == isAbsolute directory then
    (walk? (trail [] (first :: rest)) [] folders).map (file :: ·)
  else none

/-- The path of the file of a name inside a directory. A slash at the start of the name is one more
slash after the directory. -/
def filePath (directory name : String) : String := directory ++ "/" ++ name ++ ".snap"

/-- The path at which the snapshot of a name is looked for. A name that is itself an absolute path
stands for a file outside the directory. -/
def snapshotPath (directory name : String) : String :=
  if isAbsolute name then name ++ ".snap" else filePath directory name

end PegGrammar.Snapshot
