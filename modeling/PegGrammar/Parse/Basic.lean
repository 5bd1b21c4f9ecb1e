import PegGrammar.Match.Engine
import PegGrammar.Parse.Error

/-!
# Parsing

A text is parsed by matching the start rule at its beginning. Unless told otherwise the match has
to take the whole text. A match becomes a syntax tree, a failure a parse error.

## Main definitions

* `Grammar.parse` — the syntax tree of a text, or the error
* `Grammar.parseWith` — the same with statistics and an observer
* `Grammar.parseBatch` — several texts
* `Grammar.attempt` — one rule at one position
-/

namespace PegGrammar

/-- The result of parsing a text. -/
abbrev ParseResult := Except ParseError SyntaxTree

/-- How a text is parsed. -/
structure ParseConfig where
  /-- Whether the match has to take the whole text. -/
  requireFullInput : Bool := true
  /-- Whether statistics are kept. -/
  collectStats : Bool := true
  deriving DecidableEq, Repr

/-- What a successful parse yields. -/
structure ParseOutput where
  /-- The syntax tree. -/
  tree : SyntaxTree
  /-- The statistics, all zero if they were not kept. -/
  stats : Stats
  deriving DecidableEq

/-- The greatest length, in bytes, of a text whose offsets spans can record. -/
def maxInputLength : Nat := 0xFFFFFFFF

/-- Refuse a text that is too long to be parsed. -/
def checkLength (text : List Char) : Except Fault Unit :=
  if Text.byteLength text ≤ maxInputLength then .ok ()
  else .error (.inputTooLong (Text.byteLength text))

namespace Grammar

variable {σ : Type}

/-- What the outcome of the start rule means for the text as a whole. -/
def conclude (text : List Char) (config : ParseConfig) (stats : Stats) :
    Outcome (Node Unit) → Except Fault (Except ParseError ParseOutput)
  | .failed offset => return .error (← ParseError.ofFailure text offset)
  | .matched node stop =>
    if config.requireFullInput && stop.offset < Text.byteLength text then
      return .error (← ParseError.ofRemainder text stop.offset)
    else return .ok ⟨← SyntaxTree.ofMatch node text, stats⟩

/-- Parse a text as configured, reporting events to an observer: the result, and the observer
after the last event. -/
def parseWith (g : Grammar) (text : String) (config : ParseConfig) (handle : σ → Event → σ)
    (observer : σ) : Except Fault (Except ParseError ParseOutput × σ) := do
  let chars := text.toList
  checkLength chars
  let watch : Watch σ := ⟨handle, config.collectStats⟩
  let (outcome, monitor) ← g.matchRule watch g.start (.start chars) .syntactic |>.run { observer }
  return (← conclude chars config monitor.stats outcome, monitor.observer)

/-- Parse a text. -/
def parse (g : Grammar) (text : String) : Except Fault ParseResult := do
  let (result, _) ← g.parseWith text { collectStats := false } (fun _ _ => ()) ()
  return result.map ParseOutput.tree

/-- Parse several texts, in order. -/
def parseBatch (g : Grammar) (texts : List String) : Except Fault (List ParseResult) :=
  texts.mapM g.parse

/-- Match a rule at a byte offset of a text; what comes after the match does not matter. -/
def attempt (g : Grammar) (id : RuleId) (text : String) (position : Nat)
    (mode : MatchMode := .syntactic) : Except Fault (Outcome (Node Unit)) := do
  let chars := text.toList
  checkLength chars
  match Cursor.at? chars position with
  | none => throw (.notBoundary position)
  | some c =>
    let (outcome, _) ← g.matchRule ⟨fun _ _ => (), false⟩ id c mode |>.run { observer := () }
    return outcome

end Grammar

end PegGrammar
