import PegGrammar.Parse.Error
import PegGrammar.Text.Window

/-!
# Reports of parse errors

Plain texts that show a parse error to a person: with the surroundings of the place where parsing
got stuck, or with the name of the file and the position in front.
-/

namespace PegGrammar.ParseError

/-- The message with up to `chars` characters of the source on each side of the error, which
stands in brackets. A source in which the error has no place is not shown. -/
def withContext (e : ParseError) (source : List Char) (chars : Nat) : Except Fault String := do
  match ← Window.of? source e.span chars with
  | none => return e.message
  | some w =>
    return e.message ++ "\n\nContext:\n  ..." ++ w.before ++ "[" ++ w.focus ++ "]" ++ w.after
      ++ "..."

/-- The message behind the position and, if given, the name of the file. -/
def withLocation (e : ParseError) (file? : Option String) : String :=
  (match file? with
    | some file => file ++ ":"
    | none => "")
    ++ toString e.position.line.toNat ++ ":" ++ toString e.position.column.toNat ++ ": "
    ++ e.message

end PegGrammar.ParseError
