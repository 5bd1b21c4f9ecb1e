import PegGrammar.Expr.Basic

/-!
# The text of an expression

Grammars are printed in the notation in which grammars are usually written: quoted literals,
bracketed sets, `a..b` ranges, juxtaposition for sequences, `( … | … )` for choices and a sign
after what is repeated.

## Implementation notes

The writer produces a list of characters, on which the shape of the text can be reasoned about;
`Expr.render` packs it into a string. Quoted texts and sets escape the backslash, three control
characters and the sign that would close them, so no written terminal contains a line break.
-/

namespace PegGrammar

/-- How a character is written inside a quoted text or a set that `close` ends. -/
def writeEscaped (close c : Char) : List Char :=
  if c = close ∨ c = '\\' then ['\\', c]
  else if c = '\n' then ['\\', 'n']
  else if c = '\r' then ['\\', 'r']
  else if c = '\t' then ['\\', 't']
  else [c]

/-- A text between single quotation marks. -/
def writeQuoted (cs : List Char) : List Char := '\'' :: cs.flatMap (writeEscaped '\'') ++ ['\'']

/-- The text of a terminal. -/
def Terminal.write : Terminal → List Char
  | .literal text => writeQuoted text.toList
  | .charSet set => '[' :: set.chars.flatMap (writeEscaped ']') ++ [']']
  | .charRange first last => writeQuoted [first] ++ ['.', '.'] ++ writeQuoted [last]
  | .any => ['.']
  | .endOfInput => ['E', 'O', 'F']

namespace Expr

/-- Whether an expression has to stand in parentheses to be repeated as a whole. -/
def needsParentheses : Expr → Bool
  | .sequence es => 1 < es.length
  | .repeated _ _ => true
  | _ => false

/-- Parentheses around a text. -/
def parenthesize (cs : List Char) : List Char := ['(', ' '] ++ cs ++ [' ', ')']

mutual

/-- The text of an expression, with rules called by the names that `name` gives. -/
def write (name : RuleId → String) : Expr → List Char
  | .terminal t => t.write
  | .sequence es => [' '].intercalate (writeAll name es)
  | .choice es => parenthesize ([' ', '|', ' '].intercalate (writeAll name es))
  | .repeated e b =>
    (if e.needsParentheses then parenthesize (write name e) else write name e) ++ [b.symbol]
  | .rule id => (name id).toList

/-- The text of each of several expressions. -/
def writeAll (name : RuleId → String) : List Expr → List (List Char)
  | [] => []
  | e :: es => write name e :: writeAll name es

end

/-- The text of an expression, with rules called by the names that `name` gives. -/
def render (name : RuleId → String) (e : Expr) : String := String.ofList (e.write name)

end Expr

end PegGrammar
