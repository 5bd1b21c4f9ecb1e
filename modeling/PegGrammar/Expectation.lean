import PegGrammar.Parse.Basic
import PegGrammar.Tree.Dump

/-!
# Expectations about a parse

What one may expect of the result of parsing a text, and how a result falls short of it.
-/

namespace PegGrammar

/-- What one may expect of a parse. -/
inductive Expectation where
  /-- It succeeds. -/
  | success
  /-- It fails at this position. -/
  | errorAt (position : LineCol)
  /-- It fails with a message that contains this text. -/
  | errorContains (part : String)
  /-- It succeeds with a tree of which this is the dump. -/
  | dump (expected : String)
  deriving DecidableEq, Repr

/-- How the result of a parse falls short of an expectation. -/
inductive Shortfall where
  /-- A success was expected. -/
  | unexpectedError (error : ParseError)
  /-- An error was expected. -/
  | unexpectedTree (tree : SyntaxTree)
  /-- The error was expected elsewhere. -/
  | wrongPosition (actual expected : LineCol)
  /-- The message was expected to contain a text. -/
  | wrongMessage (error : ParseError) (part : String)
  /-- Another dump was expected. -/
  | wrongDump (expected actual : String)

/-- The message of a shortfall. -/
def Shortfall.message : Shortfall → String
  | .unexpectedError error => "Expected successful parse, got: " ++ error.message
  | .unexpectedTree tree => "Expected an error, got tree:\n" ++ tree.dump
  | .wrongPosition actual expected =>
    "Error reported at " ++ actual.text ++ ", expected " ++ expected.text
  | .wrongMessage error part => "Expected error containing '" ++ part ++ "', got: " ++ error.message
  | .wrongDump expected actual =>
    "Tree mismatch:\n--- Expected ---\n" ++ expected ++ "\n--- Actual ---\n" ++ actual

/-- Whether the result of a parse is as expected. -/
def Expectation.check : Expectation → ParseResult → Except Shortfall Unit
  | .success, .ok _ => .ok ()
  | .success, .error error => .error (.unexpectedError error)
  | .errorAt _, .ok tree => .error (.unexpectedTree tree)
  | .errorAt position, .error error =>
    if error.position = position then .ok () else .error (.wrongPosition error.position position)
  | .errorContains _, .ok tree => .error (.unexpectedTree tree)
  | .errorContains part, .error error =>
    if Text.occursIn part.toList error.message.toList then .ok ()
    else .error (.wrongMessage error part)
  | .dump expected, .ok tree =>
    if tree.dump = expected then .ok () else .error (.wrongDump expected tree.dump)
  | .dump _, .error error => .error (.unexpectedError error)

end PegGrammar
