import PegGrammar.Snapshot.Tester

/-!
# Sessions of a snapshot tester

A session is a tester at work on stored snapshots. Its steps are data, so that what holds after any
history can be stated. The directory of the tester stays the same throughout, and files in it can
also be written and read directly.
-/

namespace PegGrammar.Snapshot

/-- A tester at work on stored snapshots. -/
structure Session where
  /-- The tester in use. -/
  tester : Tester
  /-- The stored snapshots. -/
  store : Store := {}

/-- What happens in a session. -/
inductive Step where
  /-- A new tester for the same directory takes over, made as `Tester.new` makes it. -/
  | renew (environment : List String)
  /-- Update mode is turned on or off. -/
  | setUpdating (updating : Bool)
  /-- Trees are rendered in another style from now on. -/
  | setStyle (style : DumpStyle)
  /-- A file of the directory is written directly. -/
  | put (name content : String)
  /-- A result is checked. -/
  | check (name : String) (result : ParseResult)

namespace Session

/-- The path of the file of a name in the directory. Unlike the path of a snapshot, it never leaves
the directory because of a slash at the start of the name. -/
def path (s : Session) (name : String) : String := filePath s.tester.directory name

/-- Take a step: whether it passes, and the session after. -/
def perform (s : Session) : Step → Except Failure Unit × Session
  | .renew environment => (.ok (), { s with tester := .new s.tester.directory environment })
  | .setUpdating updating => (.ok (), { s with tester := { s.tester with updating } })
  | .setStyle style => (.ok (), { s with tester := { s.tester with style } })
  | .put name content =>
    let (verdict, store) := s.tester.save s.store (s.path name) content
    (verdict, { s with store })
  | .check name result =>
    let (verdict, store) := s.tester.check s.store name result
    (verdict, { s with store })

/-- The session after several steps. -/
def performAll (s : Session) (steps : List Step) : Session :=
  steps.foldl (fun s step => (s.perform step).2) s

/-- The content of the file of a name in the directory. -/
def read? (s : Session) (name : String) : Option String := s.tester.load? s.store (s.path name)

end Session

end PegGrammar.Snapshot
