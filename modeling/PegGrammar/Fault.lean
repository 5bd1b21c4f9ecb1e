import PegGrammar.RuleId
import PegGrammar.Text.Quoted

/-!
# Faults

A fault is a misuse of the library: the request has no answer, not even a negative one. A text
that does not parse and a grammar that is not well formed are ordinary answers and are not faults.

Some faults carry a message for the caller; the others say only that there is no answer.
-/

namespace PegGrammar

/-- The constructs that need at least one operand. -/
inductive Construct where
  /-- The alternatives of a rule. -/
  | rule
  /-- A sequence. -/
  | sequence
  /-- A choice inside an expression. -/
  | choice
  /-- A repetition. -/
  | repetition
  deriving DecidableEq, Repr

/-- The name by which messages call a construct. -/
def Construct.text : Construct → String
  | .rule => "rule"
  | .sequence => "seq"
  | .choice => "sub_rule"
  | .repetition => "quantifier"

/-- Why a request has no answer. -/
inductive Fault where
  /-- A construct was given no operands. -/
  | noOperands (construct : Construct)
  /-- A character range whose first character comes after its last. -/
  | emptyRange (first last : Char)
  /-- A matching position inside a character or past the end of the text. -/
  | notBoundary (position : Nat)
  /-- An offset past the end of the text it is looked up in. -/
  | offsetPastEnd (offset length : Nat)
  /-- A text too long for its offsets to be recorded in spans. -/
  | inputTooLong (length : Nat)
  /-- No text lies between these two offsets. -/
  | badSlice (start stop : Nat)
  /-- The length of a span that ends before it starts. -/
  | invertedSpan
  /-- A rule that the grammar does not have. -/
  | unknownRule (id : RuleId)
  /-- A counter that left its 64 bits. -/
  | counterOverflow
  /-- Matching a rule leads back to the same rule at the same position, without end. -/
  | leftRecursion
  deriving DecidableEq, Repr

/-- The message of a fault, for the faults that have one. -/
def Fault.message : Fault → Option String
  | .noOperands construct => some (construct.text ++ ": parsers is empty")
  | .emptyRange first last =>
    some ("range " ++ Text.quoteChar first ++ ".." ++ Text.quoteChar last ++ " is empty")
  | .notBoundary position =>
    some ("position " ++ toString position ++ " is not a character boundary of the input")
  | .offsetPastEnd offset length =>
    some ("Offset " ++ toString offset ++ " exceeds text length " ++ toString length)
  | .inputTooLong length =>
    some ("input of " ++ toString length ++ " bytes exceeds the u32::MAX byte limit")
  | .badSlice _ _ | .invertedSpan | .unknownRule _ | .counterOverflow | .leftRecursion => none

end PegGrammar
