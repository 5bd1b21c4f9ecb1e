import PegGrammar.Proofs.Lines

/-!
# Lines and columns by counting

A line index has a table of line starts, bisects it, and counts the characters behind the entry
that it finds. A reader of the text does something simpler: look at the text from left to right,
count the line terminators up to an offset, and count the characters behind the last of them. The
two agree, and so positions are ordered as offsets are.

## What a line terminator is

Text is taken in pieces. A carriage return with a line feed right behind it is one piece, and every
other character is a piece of its own; the pieces that end a line are the pair and the two
characters by themselves. An offset between the two characters of a pair is therefore still on the
line that the pair ends, although it stands behind a carriage return.

## Main definitions

* `Text.pieces`, `Text.terminatorEnds` — the terminators of a text, from left to right
* `LineCol.CountedIn` — a line and a column found by counting

## Main results

* `lineStarts_eq_terminatorEnds` — the table lists the ends of the terminators
* `LineIndex.terminatorEndsUpTo_eq_take` — bisecting finds the last terminator up to an offset
* `LineIndex.exists_lineCol_iff` — exactly the positions of a text have a line and a column
* `LineCol.CountedIn.before` — positions are ordered as offsets are
* `lineCol_counts_terminators` — a line index agrees with counting, and orders positions
-/

namespace PegGrammar

namespace Text

/-! ### Counting -/

/-- The pieces of a text, found from left to right: a carriage return with a line feed right behind
it is one piece, and every other character is a piece of its own. -/
def pieces : List Char → List (List Char)
  | [] => []
  | '\r' :: '\n' :: cs => ['\r', '\n'] :: pieces cs
  | c :: cs => [c] :: pieces cs

/-- Whether a piece ends a line. -/
def isTerminator (piece : List Char) : Bool :=
  piece == ['\r', '\n'] || piece == ['\n'] || piece == ['\r']

/-- The offsets at which the terminators among some pieces end, if the pieces begin at `offset`. -/
def endsFrom (offset : Nat) : List (List Char) → List Nat
  | [] => []
  | piece :: rest =>
    if isTerminator piece then
      (offset + byteLength piece) :: endsFrom (offset + byteLength piece) rest
    else endsFrom (offset + byteLength piece) rest

/-- The offsets at which the line terminators of a text end. -/
def terminatorEnds (text : List Char) : List Nat := endsFrom 0 (pieces text)

/-- The offsets at which the line terminators end that end at or before an offset. -/
def terminatorEndsUpTo (text : List Char) (offset : Nat) : List Nat :=
  (terminatorEnds text).filter (· ≤ offset)

end Text

namespace LineCol

/-- The position that counting gives for an offset: one line for each terminator that ends at or
before it, and one column for each character behind the last of them. -/
structure CountedIn (text : List Char) (offset : Nat) (p : LineCol) : Prop where
  /-- Terminators are counted. -/
  line_eq : p.line.toNat = 1 + (Text.terminatorEndsUpTo text offset).length
  /-- Characters are counted, from the end of the last terminator or the start of the text. -/
  column_eq : ∃ part,
    Text.slice? text ((Text.terminatorEndsUpTo text offset).getLast?.getD 0) offset = some part ∧
      p.column.toNat = 1 + part.length

/-- One position comes before another: it is on an earlier line, or further left on the same. -/
def Before (p q : LineCol) : Prop := p.line < q.line ∨ p.line = q.line ∧ p.column < q.column

end LineCol

/-! ### The table -/

theorem lineStarts_eq_endsFrom (offset : Nat) (cs : List Char) :
    lineStarts offset cs = Text.endsFrom offset (Text.pieces cs) := by
  fun_induction lineStarts offset cs with
  | case1 => rfl
  | case2 offset cs ih =>
    rw [Text.pieces, Text.endsFrom, if_pos (by decide), ih]
    rfl
  | case3 offset c cs hpair hc ih =>
    rw [Text.pieces, Text.endsFrom]
    · rcases hc with rfl | rfl <;> rw [if_pos (by decide), ih] <;> rfl
    · exact hpair
  | case4 offset c cs hpair hc ih =>
    have hterminator : Text.isTerminator [c] = false := by
      simp only [not_or] at hc
      simp [Text.isTerminator, hc]
    rw [Text.pieces, Text.endsFrom]
    · simpa [hterminator] using ih
    · exact hpair

/-- **The table lists the ends of the terminators.** -/
theorem lineStarts_eq_terminatorEnds (text : List Char) :
    lineStarts 0 text = Text.terminatorEnds text :=
  lineStarts_eq_endsFrom 0 text

theorem lt_of_mem_lineStarts {offset s : Nat} {cs : List Char} (h : s ∈ lineStarts offset cs) :
    offset < s := by
  fun_induction lineStarts offset cs with
  | case1 => exact absurd h List.not_mem_nil
  | case2 offset cs ih =>
    rcases List.mem_cons.mp h with rfl | h
    · omega
    · have := ih h
      omega
  | case3 offset c cs _ _ ih =>
    rcases List.mem_cons.mp h with rfl | h
    · omega
    · have := ih h
      omega
  | case4 offset c cs _ _ ih =>
    have := ih h
    omega

theorem pairwise_lineStarts (offset : Nat) (cs : List Char) :
    (lineStarts offset cs).Pairwise (· < ·) := by
  fun_induction lineStarts offset cs with
  | case1 => exact List.Pairwise.nil
  | case2 offset cs ih => exact List.pairwise_cons.mpr ⟨fun s hs => lt_of_mem_lineStarts hs, ih⟩
  | case3 offset c cs _ _ ih =>
    exact List.pairwise_cons.mpr ⟨fun s hs => lt_of_mem_lineStarts hs, ih⟩
  | case4 offset c cs _ _ ih => exact ih

theorem length_lineStarts_le (offset : Nat) (cs : List Char) :
    (lineStarts offset cs).length ≤ Text.byteLength cs := by
  fun_induction lineStarts offset cs with
  | case1 => simp
  | case2 offset cs ih =>
    have hpair : ('\r').utf8Size = 1 ∧ ('\n').utf8Size = 1 := by decide
    simp only [List.length_cons, Text.byteLength_cons]
    omega
  | case3 offset c cs _ _ ih =>
    have hc := c.utf8Size_pos
    simp only [List.length_cons, Text.byteLength_cons]
    omega
  | case4 offset c cs _ _ ih =>
    simp only [Text.byteLength_cons]
    omega

/-! ### Bisecting -/

/-- In an ascending list, the entries up to a number are those up to the last of them. -/
theorem filter_le_eq_take {starts : List Nat} {offset i : Nat} (hsorted : starts.Pairwise (· < ·))
    (hi : i < starts.length) (hlow : starts[i] ≤ offset)
    (hhigh : ∀ s ∈ starts[i + 1]?, offset < s) :
    starts.filter (· ≤ offset) = starts.take (i + 1) := by
  induction starts generalizing i with
  | nil => exact absurd hi (Nat.not_lt_zero i)
  | cons s starts ih =>
    rw [List.pairwise_cons] at hsorted
    cases i with
    | zero =>
      have hnone : starts.filter (· ≤ offset) = [] := by
        cases starts with
        | nil => rfl
        | cons t starts =>
          have ht : offset < t := hhigh t rfl
          have hrest := (List.pairwise_cons.mp hsorted.2).1
          simp only [List.filter_eq_nil_iff, decide_eq_true_eq, Nat.not_le, List.forall_mem_cons]
          exact ⟨ht, fun u hu => Nat.lt_trans ht (hrest u hu)⟩
      rw [List.filter_cons_of_pos (by simpa using hlow), hnone]
      rfl
    | succ i =>
      simp only [List.getElem_cons_succ] at hlow
      have hlt := hsorted.1 _ (List.getElem_mem (by simpa using hi : i < starts.length))
      have hs : s ≤ offset := by omega
      rw [List.filter_cons_of_pos (by simpa using hs), List.take_succ_cons,
        ih hsorted.2 (by simpa using hi) hlow (by simpa using hhigh)]

namespace LineIndex

variable {text : List Char} {offset : Nat}

/-- Bisecting stays inside the table, and keeps its upper end at an entry that is greater than the
offset, or past the table. -/
theorem bisect_lt_and_lt {starts : Array Nat} {offset low high : Nat} (hlow : low < high)
    (hsize : high ≤ starts.size) (hhigh : high < starts.size → offset < starts.getD high 0) :
    bisect starts offset low high < starts.size ∧
      (bisect starts offset low high + 1 < starts.size →
        offset < starts.getD (bisect starts offset low high + 1) 0) := by
  fun_induction bisect starts offset low high with
  | case1 low high hgap hmid ih => exact ih (by omega) hsize hhigh
  | case2 low high hgap hmid ih =>
    exact ih (by omega) (by omega) fun _ => Nat.not_le.mp hmid
  | case3 low high hgap =>
    obtain rfl : high = low + 1 := by omega
    exact ⟨hsize, hhigh⟩

theorem starts_of (text : List Char) :
    (of text).starts = (0 :: Text.terminatorEnds text).toArray := by
  rw [of, lineStarts_eq_terminatorEnds]

/-- **Bisecting finds the last terminator up to an offset.** -/
theorem terminatorEndsUpTo_eq_take (text : List Char) (offset : Nat) :
    Text.terminatorEndsUpTo text offset
        = (Text.terminatorEnds text).take ((of text).lineOf offset) ∧
      (of text).lineOf offset ≤ (Text.terminatorEnds text).length := by
  have hsorted : (0 :: Text.terminatorEnds text).Pairwise (· < ·) := by
    rw [← lineStarts_eq_terminatorEnds]
    exact List.pairwise_cons.mpr ⟨fun s hs => lt_of_mem_lineStarts hs, pairwise_lineStarts 0 text⟩
  have hle : (of text).starts.getD ((of text).lineOf offset) 0 ≤ offset :=
    getD_bisect_le (Nat.zero_le offset)
  obtain ⟨hlt, hnext⟩ : (of text).lineOf offset < (of text).starts.size ∧ _ :=
    bisect_lt_and_lt (by simp [of]) (Nat.le_refl _) fun h => absurd h (Nat.lt_irrefl _)
  rw [← lineOf] at hnext
  generalize (of text).lineOf offset = line at hle hlt hnext ⊢
  rw [starts_of] at hle hlt hnext
  simp only [List.size_toArray, Array.getD_eq_getD_getElem?, List.getElem?_toArray] at hle hlt hnext
  rw [List.getElem?_eq_getElem hlt, Option.getD_some] at hle
  have htake := filter_le_eq_take hsorted hlt hle fun s hs => by
    have hlast := hnext (List.getElem?_eq_some_iff.mp hs).1
    rwa [hs, Option.getD_some] at hlast
  rw [List.filter_cons_of_pos (by simp), List.take_succ_cons, List.cons.injEq] at htake
  exact ⟨htake.2, Nat.le_of_lt_succ hlt⟩

/-- The entry that is found is the end of the last terminator up to the offset. -/
theorem getD_starts_lineOf (text : List Char) (offset : Nat) :
    (of text).starts.getD ((of text).lineOf offset) 0
      = (Text.terminatorEndsUpTo text offset).getLast?.getD 0 := by
  obtain ⟨htake, hline⟩ := terminatorEndsUpTo_eq_take text offset
  rw [htake, starts_of, Array.getD_eq_getD_getElem?, List.getElem?_toArray]
  generalize (of text).lineOf offset = line at hline ⊢
  cases line with
  | zero => rfl
  | succ k =>
    rw [List.getElem?_cons_succ, List.getLast?_take, if_neg (Nat.succ_ne_zero k),
      Nat.add_sub_cancel, List.getElem?_eq_getElem hline, Option.some_or]

/-! ### Positions -/

/-- What a position is: the number of terminators up to the offset and the number of characters
behind the last of them, each plus one. -/
theorem lineCol_eq_ok_iff {p : LineCol} :
    (of text).lineCol offset = .ok p ↔ ∃ part,
      Text.slice? text ((Text.terminatorEndsUpTo text offset).getLast?.getD 0) offset = some part ∧
      p = ⟨saturate ((Text.terminatorEndsUpTo text offset).length + 1),
        saturate (part.length + 1)⟩ := by
  obtain ⟨htake, hline⟩ := terminatorEndsUpTo_eq_take text offset
  have hlength : (Text.terminatorEndsUpTo text offset).length = (of text).lineOf offset := by
    rw [htake, List.length_take, Nat.min_eq_left hline]
  rw [lineCol, of_text, ← getD_starts_lineOf, hlength]
  cases hslice : Text.slice? text ((of text).starts.getD ((of text).lineOf offset) 0) offset with
  | none =>
    simp only [Text.slice, hslice, Except.map, reduceCtorEq, false_and, exists_false, iff_false]
    split <;> simp
  | some part =>
    obtain ⟨front, back, hsplit, hfront, hstop⟩ := Text.slice?_eq_some_iff.mp hslice
    have hbound : ¬ Text.byteLength text < offset := by
      rw [hsplit, Text.byteLength_append, Text.byteLength_append]
      omega
    simp only [Text.slice, hslice, Except.map, if_neg hbound, Except.ok.injEq, Option.some.injEq,
      exists_eq_left']
    exact eq_comm

/-- Exactly the positions of a text have a line and a column. -/
theorem exists_lineCol_iff :
    (∃ p, (of text).lineCol offset = .ok p) ↔ Text.isBoundary text offset = true := by
  constructor
  · rintro ⟨p, hp⟩
    obtain ⟨part, hslice, -⟩ := lineCol_eq_ok_iff.mp hp
    obtain ⟨front, back, hsplit, hfront, hstop⟩ := Text.slice?_eq_some_iff.mp hslice
    exact Text.isBoundary_iff.mpr
      ⟨front ++ part, back, hsplit, by rw [Text.byteLength_append]; omega⟩
  · intro h
    obtain ⟨c, hc⟩ := Cursor.exists_at?_of_isBoundary h
    exact exists_lineCol_eq_ok ⟨c, Cursor.at?_eq_some_iff.mp hc⟩

theorem exists_lineCol_eq_error_iff :
    (∃ fault, (of text).lineCol offset = .error fault) ↔
      Text.byteLength text < offset ∨ Text.isBoundary text offset = false := by
  rw [or_iff_right_of_imp Text.isBoundary_eq_false_of_lt, ← Bool.not_eq_true, ← exists_lineCol_iff]
  cases (of text).lineCol offset with
  | ok p => simp
  | error fault => simp

end LineIndex

/-! ### Numbers that fit -/

theorem Text.length_le_byteLength (cs : List Char) : cs.length ≤ byteLength cs := by
  induction cs with
  | nil => simp
  | cons c cs ih =>
    have := c.utf8Size_pos
    simp only [List.length_cons, byteLength_cons]
    omega

/-- In a text that is short enough, neither the line nor the column is too large to be shown. -/
theorem LineIndex.countedIn_of_lineCol {text : List Char} {offset : Nat} {p : LineCol}
    (hlength : Text.byteLength text < UInt32.size - 1) (h : (of text).lineCol offset = .ok p) :
    p.CountedIn text offset := by
  obtain ⟨part, hslice, rfl⟩ := lineCol_eq_ok_iff.mp h
  have hlines : (Text.terminatorEndsUpTo text offset).length ≤ Text.byteLength text := by
    calc (Text.terminatorEndsUpTo text offset).length
        ≤ (Text.terminatorEnds text).length := List.length_filter_le _ _
      _ ≤ Text.byteLength text := by
        rw [← lineStarts_eq_terminatorEnds]
        exact length_lineStarts_le 0 text
  have hpart : part.length ≤ Text.byteLength text := by
    obtain ⟨front, back, rfl, -, -⟩ := Text.slice?_eq_some_iff.mp hslice
    have := Text.length_le_byteLength part
    simp only [Text.byteLength_append]
    omega
  refine ⟨?_, part, hslice, ?_⟩
  · rw [toNat_saturate (by omega), Nat.add_comm]
  · rw [toNat_saturate (by omega), Nat.add_comm]

/-! ### The order of positions -/

/-- From the same start, the text up to a later offset has more characters. -/
theorem Text.length_lt_of_slice? {text part part' : List Char} {start stop stop' : Nat}
    (h : slice? text start stop = some part) (h' : slice? text start stop' = some part')
    (hlt : stop < stop') : part.length < part'.length := by
  obtain ⟨front, back, hsplit, hfront, hstop⟩ := slice?_eq_some_iff.mp h
  obtain ⟨front', back', hsplit', hfront', hstop'⟩ := slice?_eq_some_iff.mp h'
  have hrest : part ++ back = part' ++ back' := by
    have hdrop : dropBytes? text start = some (part ++ back) :=
      dropBytes?_eq_some_iff.mpr ⟨front, by rw [hsplit, List.append_assoc], hfront⟩
    have hdrop' : dropBytes? text start = some (part' ++ back') :=
      dropBytes?_eq_some_iff.mpr ⟨front', by rw [hsplit', List.append_assoc], hfront'⟩
    exact Option.some.inj (hdrop.symm.trans hdrop')
  rcases List.append_eq_append_iff.mp hrest with ⟨more, rfl, -⟩ | ⟨more, rfl, -⟩
  · have hmore : more ≠ [] := by
      rintro rfl
      rw [List.append_nil] at hstop'
      omega
    rw [List.length_append]
    exact Nat.lt_add_of_pos_right (List.length_pos_of_ne_nil hmore)
  · rw [byteLength_append] at hstop
    omega

/-- **Positions are ordered as offsets are.** -/
theorem LineCol.CountedIn.before {text : List Char} {offset offset' : Nat} {p q : LineCol}
    (hp : p.CountedIn text offset) (hq : q.CountedIn text offset') (hlt : offset < offset') :
    p.Before q := by
  have hfilter : Text.terminatorEndsUpTo text offset
      = (Text.terminatorEndsUpTo text offset').filter (· ≤ offset) := by
    rw [Text.terminatorEndsUpTo, Text.terminatorEndsUpTo, List.filter_filter]
    refine List.filter_congr fun s _ => ?_
    rw [Bool.eq_iff_iff]
    simp only [decide_eq_true_eq, Bool.and_eq_true]
    omega
  have hle : (Text.terminatorEndsUpTo text offset).length
      ≤ (Text.terminatorEndsUpTo text offset').length := by
    rw [hfilter]
    exact List.length_filter_le _ _
  have hpline := hp.line_eq
  have hqline := hq.line_eq
  by_cases heq : (Text.terminatorEndsUpTo text offset).length
      = (Text.terminatorEndsUpTo text offset').length
  -- On one line the columns are counted from the same place.
  · have hsame : Text.terminatorEndsUpTo text offset = Text.terminatorEndsUpTo text offset' := by
      rw [hfilter] at heq ⊢
      exact List.filter_eq_self.mpr (List.length_filter_eq_length_iff.mp heq)
    obtain ⟨part, hslice, hpcolumn⟩ := hp.column_eq
    obtain ⟨part', hslice', hqcolumn⟩ := hq.column_eq
    rw [hsame] at hslice
    have hcolumns := Text.length_lt_of_slice? hslice hslice' hlt
    refine Or.inr ⟨UInt32.toNat_inj.mp (by omega), UInt32.lt_iff_toNat_lt.mpr (by omega)⟩
  · exact Or.inl (UInt32.lt_iff_toNat_lt.mpr (by omega))

/-- **A line index agrees with counting.** In a text of fewer bytes than the largest number that a
position can show, exactly the offsets that are no positions of the text have no line and column,
and all others have those that counting gives. The number of lines is one more than the number of
terminators, and of two offsets the smaller has the earlier position. -/
theorem lineCol_counts_terminators {text : List Char}
    (h : Text.byteLength text < UInt32.size - 1) :
    (∀ offset, (∃ fault, (LineIndex.of text).lineCol offset = .error fault) ↔
      Text.byteLength text < offset ∨ Text.isBoundary text offset = false) ∧
    (∀ offset, Text.isBoundary text offset = true →
      ∃ p, (LineIndex.of text).lineCol offset = .ok p ∧ p.CountedIn text offset) ∧
    (LineIndex.of text).lineCount = 1 + (Text.terminatorEnds text).length ∧
    ∀ offset offset', Text.isBoundary text offset = true → Text.isBoundary text offset' = true →
      offset < offset' →
      ∃ p q, (LineIndex.of text).lineCol offset = .ok p ∧
        (LineIndex.of text).lineCol offset' = .ok q ∧ p.Before q := by
  refine ⟨fun offset => LineIndex.exists_lineCol_eq_error_iff, ?_, ?_, ?_⟩
  · intro offset hoffset
    obtain ⟨p, hp⟩ := LineIndex.exists_lineCol_iff.mpr hoffset
    exact ⟨p, hp, LineIndex.countedIn_of_lineCol h hp⟩
  · rw [LineIndex.lineCount, LineIndex.starts_of, List.size_toArray, List.length_cons, Nat.add_comm]
  · intro offset offset' hoffset hoffset' hlt
    obtain ⟨p, hp⟩ := LineIndex.exists_lineCol_iff.mpr hoffset
    obtain ⟨q, hq⟩ := LineIndex.exists_lineCol_iff.mpr hoffset'
    exact ⟨p, q, hp, hq, (LineIndex.countedIn_of_lineCol h hp).before
      (LineIndex.countedIn_of_lineCol h hq) hlt⟩

/-- Three lines with a terminator of each kind between two of them, and a character of two bytes. -/
def threeLines : List Char := "a\r\né\rb".toList

/-- The offset between the characters of the pair is still on the first line, and the offset behind
the pair is on the second. -/
theorem threeLines_positions :
    Text.byteLength threeLines < UInt32.size - 1 ∧
    Text.terminatorEnds threeLines = [3, 6] ∧
    (LineIndex.of threeLines).lineCol 2 = .ok ⟨1, 3⟩ ∧
    (LineIndex.of threeLines).lineCol 3 = .ok ⟨2, 1⟩ ∧
    LineCol.Before ⟨1, 3⟩ ⟨2, 1⟩ ∧
    (∃ fault, (LineIndex.of threeLines).lineCol 4 = .error fault) ∧
    (LineIndex.of threeLines).lineCount = 3 := by
  have hlength : Text.byteLength threeLines < UInt32.size - 1 := by decide
  have hfirst : (LineIndex.of threeLines).lineCol 2 = .ok ⟨1, 3⟩ := by decide +kernel
  have hsecond : (LineIndex.of threeLines).lineCol 3 = .ok ⟨2, 1⟩ := by decide +kernel
  obtain ⟨hfault, -, hcount, horder⟩ := lineCol_counts_terminators hlength
  obtain ⟨p, q, hp, hq, hbefore⟩ := horder 2 3 (by decide) (by decide) (by decide)
  cases hfirst.symm.trans hp
  cases hsecond.symm.trans hq
  exact ⟨hlength, by decide, hfirst, hsecond, hbefore, (hfault 4).mpr (Or.inr (by decide)), hcount⟩

end PegGrammar
