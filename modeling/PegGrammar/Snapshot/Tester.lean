import PegGrammar.Parse.Basic
import PegGrammar.Snapshot.Location
import PegGrammar.Tree.Dump

/-!
# Snapshots

A snapshot is the stored rendering of the result of a parse, kept under a name. A tester compares
results with the snapshots in its directory, or, in update mode, stores them there.

## Implementation notes

The stored contents are a map from places. Update mode is the only way in which checking changes it,
and then exactly the entry of the place that the checked name leads to.
-/

namespace PegGrammar.Snapshot

/-! ### Stored contents -/

/-- Stored contents, by place. -/
structure Store where
  /-- The stored contents; of several at one place the first counts. -/
  entries : List (Place × String) := []

namespace Store

/-- The content stored at a place. -/
def read? (s : Store) (place : Place) : Option String := s.entries.lookup place

/-- The store with this content at a place. -/
def write (s : Store) (place : Place) (content : String) : Store :=
  ⟨(place, content) :: s.entries.filter (·.1 != place)⟩

end Store

/-! ### Testers -/

/-- The environment variable that turns update mode on, by which messages call it. -/
def updateSwitch : String := "UPDATE_SNAPSHOTS"

/-- The environment variables of which each turns update mode on. -/
def updateSwitches : List String := [updateSwitch, "TRELLIS_UPDATE_SNAPSHOTS"]

/-- Compares results with snapshots. -/
structure Tester where
  /-- The directory, as messages show it. -/
  directory : String
  /-- Whether results are stored instead of compared. -/
  updating : Bool
  /-- How trees are rendered. -/
  style : DumpStyle := {}
  deriving DecidableEq, Repr

/-- How a check fails. -/
inductive Failure where
  /-- The snapshot differs from the result. -/
  | mismatch (name expected actual : String)
  /-- There is no snapshot of that name at that path. -/
  | missing (name path : String)
  /-- The path leads to no place where a snapshot could be stored. -/
  | unwritable (path : String)
  deriving DecidableEq, Repr

/-- The message of a failed check. A path that cannot be written to has none of its own. -/
def Failure.message : Failure → Option String
  | .mismatch name expected actual =>
    some ("Snapshot mismatch for '" ++ name ++ "':\n--- Expected ---\n" ++ expected
      ++ "\n--- Actual ---\n" ++ actual
      ++ "\n\nTo update snapshots, run with " ++ updateSwitch ++ "=1")
  | .missing name path =>
    some ("Snapshot '" ++ name ++ "' not found at " ++ path
      ++ ".\nTo create it, run with " ++ updateSwitch ++ "=1")
  | .unwritable _ => none

/-- The rendering of a parse error. -/
def renderError (error : ParseError) : String :=
  error.message ++ "\nspan: " ++ error.span.text ++ "\n"

namespace Tester

/-- A tester for a directory. It is in update mode if one of the switches is among the names set in
the environment, and renders trees in the default style. -/
def new (directory : String) (environment : List String) : Tester where
  directory
  updating := updateSwitches.any environment.contains

/-- The rendering of a result. -/
def render (t : Tester) : ParseResult → String
  | .ok tree => tree.dump t.style
  | .error error => renderError error

/-- The path at which the snapshot of a name is looked for. -/
def path (t : Tester) (name : String) : String := snapshotPath t.directory name

/-- The content of the file at a path. -/
def load? (t : Tester) (s : Store) (path : String) : Option String :=
  (locate? t.directory path).bind s.read?

/-- Store a content in the file at a path: whether that is possible, and the store after. -/
def save (t : Tester) (s : Store) (path content : String) : Except Failure Unit × Store :=
  match locate? t.directory path with
  | none => (.error (.unwritable path), s)
  | some place => (.ok (), s.write place content)

/-- Check a result against the snapshot of a name: whether it passes, and the store after. -/
def check (t : Tester) (s : Store) (name : String) (result : ParseResult) :
    Except Failure Unit × Store :=
  let actual := t.render result
  if t.updating then t.save s (t.path name) actual
  else
    match t.load? s (t.path name) with
    | none => (.error (.missing name (t.path name)), s)
    | some expected =>
      if actual = expected then (.ok (), s) else (.error (.mismatch name expected actual), s)

end Tester

end PegGrammar.Snapshot
