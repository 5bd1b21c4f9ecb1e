import PegGrammar.Fault
import PegGrammar.Text.Bytes

/-!
# Spans

A span is a half-open range of byte offsets. Offsets are stored in 32 bits; a larger one is
recorded as the largest that fits, which never happens for a text short enough to be parsed.

Nothing orders the two ends of a span: a span read from outside may end before it starts, and then
it has neither a length nor a text.
-/

namespace PegGrammar

/-- The largest 32-bit number up to `n`. -/
def saturate (n : Nat) : UInt32 := if n < UInt32.size then n.toUInt32 else 0xFFFFFFFF

/-- The text from byte `start` up to byte `stop`. It is a fault to ask for one that is not there. -/
def Text.slice (text : List Char) (start stop : Nat) : Except Fault (List Char) :=
  match slice? text start stop with
  | some part => .ok part
  | none => .error (.badSlice start stop)

/-- A half-open range of byte offsets. -/
structure Span where
  /-- The first byte of the range. -/
  start : UInt32 := 0
  /-- The byte after the range. -/
  stop : UInt32 := 0
  deriving DecidableEq, Repr, Inhabited

namespace Span

/-- The span between two offsets. -/
def of (start stop : Nat) : Span := ⟨saturate start, saturate stop⟩

/-- The empty span at an offset. -/
def empty (offset : Nat) : Span := of offset offset

/-- Whether both ends of the span are the same offset. -/
def isEmpty (s : Span) : Bool := s.start == s.stop

/-- How the start of the span compares with its end. -/
def order (s : Span) : Ordering := compare s.start s.stop

/-- The number of bytes in the span. -/
def length (s : Span) : Except Fault UInt32 :=
  if s.start ≤ s.stop then .ok (s.stop - s.start) else .error .invertedSpan

/-- The part of a text that the span covers. -/
def slice (s : Span) (text : List Char) : Except Fault (List Char) :=
  Text.slice text s.start.toNat s.stop.toNat

/-- The form in which dumps and messages show a span, such as `3..7`. -/
def text (s : Span) : String := toString s.start.toNat ++ ".." ++ toString s.stop.toNat

end Span

/-! ### Saturation -/

theorem toNat_saturate {n : Nat} (h : n < UInt32.size) : (saturate n).toNat = n := by
  simp [saturate, h, Nat.mod_eq_of_lt h]

end PegGrammar
