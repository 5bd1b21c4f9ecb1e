import PegGrammar.Text.Span

/-!
# Windows around a span

To show where something stands in a text, the text of a span is shown with a few characters on
either side. A span whose ends are not positions of the text has no window; a span that is out of
order has no text, and asking for its window is a fault.

A span is given in bytes and the width of a window in characters, so the ends of the window are
looked up among the offsets of the characters. Everything that is shown is then cut out of the
source by bytes.
-/

namespace PegGrammar

/-- The text of a span with its surroundings. -/
structure Window where
  /-- What stands right before the span. -/
  before : String
  /-- The text of the span. -/
  focus : String
  /-- What stands right after the span. -/
  after : String
  deriving DecidableEq, Repr

namespace Window

/-- The offset at which a window begins that shows up to `chars` characters of the text in front of
the offset `start`: that of the last character met when as many are gone through backwards. -/
def firstByte (front : List Char) (start chars : Nat) : Nat :=
  ((Text.charIndices front).reverse.take chars).getLast?.elim start Prod.fst

/-- The offset at which a window ends that shows up to `chars` characters of the text behind the
offset `stop`: that of the character that comes after as many, or the end of the source. -/
def endByte (source back : List Char) (stop chars : Nat) : Nat :=
  (Text.charIndices back)[chars]?.elim (Text.byteLength source) (stop + ·.1)

/-- The window that shows a span of the source with up to `chars` characters on each side. -/
def of? (source : List Char) (span : Span) (chars : Nat) : Except Fault (Option Window) := do
  let start := span.start.toNat
  let stop := span.stop.toNat
  if !Text.isBoundary source start || !Text.isBoundary source stop then return none
  let front ← Text.slice source 0 start
  let back ← Text.slice source stop (Text.byteLength source)
  let before ← Text.slice source (firstByte front start chars) start
  let focus ← span.slice source
  let after ← Text.slice source stop (endByte source back stop chars)
  return some ⟨String.ofList before, String.ofList focus, String.ofList after⟩

end Window

end PegGrammar
