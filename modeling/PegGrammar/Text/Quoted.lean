import PegGrammar.Text.Printable

/-!
# Quoted texts

A text is shown between quotation marks on one line. Inside, the mark itself and the backslash are
written after a backslash, four control characters have a letter of their own, and every other
character that a reader could not see is written as its code point in hexadecimal.

Texts are quoted with `"` and single characters with `'`; each leaves the other's mark alone.
-/

namespace PegGrammar.Text

/-- The escape `\u{…}` of a character: its code point in lower-case hexadecimal, unpadded. -/
def codePointEscape (c : Char) : List Char :=
  ['\\', 'u', '\x7b'] ++ Nat.toDigits 16 c.toNat ++ ['\x7d']

/-- How a character is written inside marks of the given kind. -/
def escapeChar (mark c : Char) : List Char :=
  if c = '\x00' then ['\\', '0']
  else if c = '\t' then ['\\', 't']
  else if c = '\n' then ['\\', 'n']
  else if c = '\r' then ['\\', 'r']
  else if c = '\\' ∨ c = mark then ['\\', c]
  else if isPrintable c then [c]
  else codePointEscape c

/-- A text between double quotation marks. -/
def quoteText (s : String) : String :=
  String.ofList ('"' :: s.toList.flatMap (escapeChar '"') ++ ['"'])

/-- A character between single quotation marks. -/
def quoteChar (c : Char) : String :=
  String.ofList ('\'' :: escapeChar '\'' c ++ ['\''])

end PegGrammar.Text
