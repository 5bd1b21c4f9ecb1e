import PegGrammar.Text.LineIndex

/-!
# Parse errors

A text that does not conform to the grammar is answered with an error that says where parsing got
stuck: at the rightmost position that a failing attempt reached, or where a match of only a part
of the text ended.
-/

namespace PegGrammar

/-- How parsing failed. -/
inductive ParseError.Kind where
  /-- The start rule did not match. -/
  | noMatch
  /-- The start rule matched, but text remains after the match. -/
  | trailingInput
  deriving DecidableEq, Repr

/-- Why a text has no syntax tree. -/
structure ParseError where
  /-- How parsing failed. -/
  kind : ParseError.Kind
  /-- Where it got stuck: an empty span, or the text that remains. -/
  span : Span
  /-- The line and column of the start of the span. -/
  position : LineCol
  deriving DecidableEq, Repr

namespace ParseError

/-- The offset at which parsing got stuck. -/
def offset (e : ParseError) : Nat := e.span.start.toNat

/-- The message of a parse error. -/
def message (e : ParseError) : String := "cannot parse input at " ++ e.position.text

/-- The code of a parse error, by which tools tell the kinds apart. -/
def code (e : ParseError) : String :=
  match e.kind with
  | .noMatch => "trellis::no_match"
  | .trailingInput => "trellis::trailing_input"

/-- What is written beside the span when it is shown in the text. -/
def label (e : ParseError) : String :=
  match e.kind with
  | .noMatch => "no alternative matches here"
  | .trailingInput => "unexpected input"

/-- The error of a start rule that got stuck at an offset of the text. -/
def ofFailure (text : List Char) (offset : Nat) : Except Fault ParseError :=
  return ⟨.noMatch, .empty offset, ← (LineIndex.of text).lineCol offset⟩

/-- The error of a start rule that matched the text up to an offset only. -/
def ofRemainder (text : List Char) (offset : Nat) : Except Fault ParseError :=
  return ⟨.trailingInput, .of offset (Text.byteLength text), ← (LineIndex.of text).lineCol offset⟩

end ParseError

end PegGrammar
