/-!
# Events and traces

A match reports to an observer when it enters a rule, when it leaves it, and when it gives up an
alternative to try the next one. A trace is the observer that keeps a line for each event, indented
by the rules open at the time.
-/

namespace PegGrammar

/-- What a match reports. -/
inductive Event where
  /-- The rule is tried at a position. -/
  | enter (rule : String) (position : Nat)
  /-- The rule matched up to a position, or failed there. -/
  | exit (rule : String) (position : Nat) (success : Bool)
  /-- An alternative failed at a position, and the next one is tried at another. -/
  | backtrack (failure restart : Nat)
  deriving DecidableEq, Repr

/-- A printable record of events. -/
structure Trace where
  /-- A line for each event. -/
  lines : Array String := #[]
  /-- The number of rules open. -/
  depth : Nat := 0
  deriving DecidableEq, Repr

namespace Trace

/-- The trace without events. -/
def empty : Trace := {}

/-- A line indented by two blanks for each open rule. -/
def indented (depth : Nat) (line : String) : String :=
  String.join (List.replicate depth "  ") ++ line

/-- The line that shows an event while `depth` rules are open around it. -/
def eventLine (depth : Nat) : Event → String
  | .enter rule position => indented depth ("> " ++ rule ++ " @" ++ toString position)
  | .exit rule position success =>
    indented depth
      ("< " ++ rule ++ (if success then " ok @" else " fail @") ++ toString position)
  | .backtrack failure restart =>
    indented depth ("~ backtrack " ++ toString failure ++ " -> " ++ toString restart)

/-- The trace with one more event. The lines for entering and leaving a rule stand at the same
depth; leaving a rule that was never entered stands at depth zero. -/
def record (t : Trace) (e : Event) : Trace :=
  match e with
  | .enter _ _ => ⟨t.lines.push (eventLine t.depth e), t.depth + 1⟩
  | .exit _ _ _ => ⟨t.lines.push (eventLine (t.depth - 1) e), t.depth - 1⟩
  | .backtrack _ _ => ⟨t.lines.push (eventLine t.depth e), t.depth⟩

/-- The trace of a sequence of events. -/
def ofEvents (events : List Event) : Trace := events.foldl record empty

/-- The whole trace as a text. -/
def text (t : Trace) : String := "\n".intercalate t.lines.toList

end Trace

end PegGrammar
