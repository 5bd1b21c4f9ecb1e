/-!
# Texts and byte offsets

A text is a list of characters, and every position in it is an offset in bytes of its UTF-8
encoding. An offset that falls inside a character is no position of the text: the functions here
answer `none` for it, and for every offset past the end.

## Main definitions

* `byteLength` — the bytes a text takes
* `dropBytes?`, `takeBytes?` — the two sides of a position
* `slice?` — the text between two positions
* `charIndices` — the characters of a text with their offsets
-/

namespace PegGrammar.Text

/-- The number of bytes in the UTF-8 encoding of a text. -/
def byteLength : List Char → Nat
  | [] => 0
  | c :: cs => c.utf8Size + byteLength cs

/-- The text after its first `n` bytes, if `n` is a position of it. -/
def dropBytes? : List Char → Nat → Option (List Char)
  | cs, 0 => some cs
  | [], _ + 1 => none
  | c :: cs, n + 1 => if c.utf8Size ≤ n + 1 then dropBytes? cs (n + 1 - c.utf8Size) else none

/-- The first `n` bytes of the text, if `n` is a position of it. -/
def takeBytes? : List Char → Nat → Option (List Char)
  | _, 0 => some []
  | [], _ + 1 => none
  | c :: cs, n + 1 =>
    if c.utf8Size ≤ n + 1 then (takeBytes? cs (n + 1 - c.utf8Size)).map (c :: ·) else none

/-- Whether a byte offset stands between two characters, or at an end, of the text. -/
def isBoundary (cs : List Char) (n : Nat) : Bool := (dropBytes? cs n).isSome

/-- The text from byte `start` up to byte `stop`. There is none when the two are out of order or
one of them is no position of the text. -/
def slice? (cs : List Char) (start stop : Nat) : Option (List Char) :=
  if start ≤ stop then (dropBytes? cs start).bind (takeBytes? · (stop - start)) else none

/-- The characters of a text that begins at a byte offset, each with the offset of its first
byte. -/
def charIndicesFrom (offset : Nat) : List Char → List (Nat × Char)
  | [] => []
  | c :: cs => (offset, c) :: charIndicesFrom (offset + c.utf8Size) cs

/-- The characters of a text, each with the offset of its first byte. -/
def charIndices (cs : List Char) : List (Nat × Char) := charIndicesFrom 0 cs

/-- Whether the first text stands somewhere inside the second. -/
def occursIn (part : List Char) : List Char → Bool
  | [] => part.isEmpty
  | c :: cs => part.isPrefixOf (c :: cs) || occursIn part cs

/-! ### Lengths -/

@[simp] theorem byteLength_nil : byteLength [] = 0 := rfl

@[simp] theorem byteLength_cons (c : Char) (cs : List Char) :
    byteLength (c :: cs) = c.utf8Size + byteLength cs := rfl

@[simp] theorem byteLength_append (xs ys : List Char) :
    byteLength (xs ++ ys) = byteLength xs + byteLength ys := by
  induction xs with
  | nil => simp
  | cons c cs ih => simp [ih, Nat.add_assoc]

@[simp] theorem dropBytes?_zero (cs : List Char) : dropBytes? cs 0 = some cs := by
  cases cs <;> rfl

@[simp] theorem takeBytes?_zero (cs : List Char) : takeBytes? cs 0 = some [] := by
  cases cs <;> rfl

end PegGrammar.Text
