import PegGrammar.Text.Span

/-!
# Lines and columns

People count lines and columns from one, and columns in characters. A line ends after a line
feed, after a carriage return, or after the pair of them, which ends one line and not two.

## Main definitions

* `lineStarts` — the offsets at which the lines after the first begin
* `LineIndex` — a text with the table of its line starts
* `LineIndex.lineCol` — the position of an offset, found by bisecting the table
-/

namespace PegGrammar

/-- A line and a column, both counted from one. -/
structure LineCol where
  /-- The line. -/
  line : UInt32
  /-- The column, in characters. -/
  column : UInt32
  deriving DecidableEq, Repr, Inhabited

/-- The form in which messages show a position. -/
def LineCol.text (p : LineCol) : String :=
  "line " ++ toString p.line.toNat ++ " column " ++ toString p.column.toNat

/-- Offsets at which the lines after the first begin, for a text that begins at `offset`. -/
def lineStarts (offset : Nat) : List Char → List Nat
  | [] => []
  | '\r' :: '\n' :: cs => (offset + 2) :: lineStarts (offset + 2) cs
  | c :: cs =>
    if c = '\n' ∨ c = '\r' then (offset + 1) :: lineStarts (offset + 1) cs
    else lineStarts (offset + c.utf8Size) cs

/-- A text with the table of its line starts. -/
structure LineIndex where
  /-- The indexed text. -/
  text : List Char
  /-- The offset at which each line begins, in ascending order. -/
  starts : Array Nat

namespace LineIndex

/-- The index of a text: its first line begins at offset zero. -/
def of (text : List Char) : LineIndex := ⟨text, (0 :: lineStarts 0 text).toArray⟩

/-- The number of lines. -/
def lineCount (index : LineIndex) : Nat := index.starts.size

/-- Bisect the table between entry `low`, which is at most `offset`, and entry `high`, which is
greater or lies past the end: the last entry that is at most `offset`. -/
def bisect (starts : Array Nat) (offset low high : Nat) : Nat :=
  if low + 1 < high then
    if starts.getD ((low + high) / 2) 0 ≤ offset then bisect starts offset ((low + high) / 2) high
    else bisect starts offset low ((low + high) / 2)
  else low
termination_by high - low

/-- The line, counted from zero, on which an offset lies. -/
def lineOf (index : LineIndex) (offset : Nat) : Nat :=
  bisect index.starts offset 0 index.starts.size

/-- The position of a byte offset. An offset past the end, or inside a character, has none. -/
def lineCol (index : LineIndex) (offset : Nat) : Except Fault LineCol :=
  if Text.byteLength index.text < offset then
    .error (.offsetPastEnd offset (Text.byteLength index.text))
  else
    let line := index.lineOf offset
    (Text.slice index.text (index.starts.getD line 0) offset).map fun part =>
      ⟨saturate (line + 1), saturate (part.length + 1)⟩

end LineIndex

end PegGrammar
