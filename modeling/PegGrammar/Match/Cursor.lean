import PegGrammar.Expr.Basic
import PegGrammar.Text.Bytes

/-!
# Cursors

A cursor stands at a position of a text: it knows the offset, which goes into spans and reports,
and the text from there on, which is all that matching looks at. What has been matched before has
no influence on what matches next, and the type of terminals' `accept?` says so.
-/

namespace PegGrammar

/-- A position in a text. -/
structure Cursor where
  /-- The bytes before the position. -/
  offset : Nat
  /-- The text after the position. -/
  rest : List Char
  deriving DecidableEq, Repr

namespace Cursor

/-- The cursor at the beginning of a text. -/
def start (text : List Char) : Cursor := ⟨0, text⟩

/-- The cursor at a byte offset of a text, if that is a position of it. -/
def at? (text : List Char) (offset : Nat) : Option Cursor :=
  (Text.dropBytes? text offset).map (⟨offset, ·⟩)

/-- The cursor past one character that satisfies `p`. -/
def next? (p : Char → Bool) (c : Cursor) : Option Cursor :=
  match c.rest with
  | [] => none
  | x :: rest => if p x then some ⟨c.offset + x.utf8Size, rest⟩ else none

/-- The cursor past exactly this text. -/
def skip? (text : List Char) (c : Cursor) : Option Cursor :=
  (text.isPrefixOf? c.rest).map (⟨c.offset + Text.byteLength text, ·⟩)

end Cursor

/-- The cursor past what a terminal matches, if it matches. -/
def Terminal.accept? : Terminal → Cursor → Option Cursor
  | .literal text, c => c.skip? text.toList
  | .charSet set, c => c.next? set.contains
  | .charRange first last, c => c.next? fun x => first ≤ x && x ≤ last
  | .any, c => c.next? fun _ => true
  | .endOfInput, c => if c.rest.isEmpty then some c else none

end PegGrammar
