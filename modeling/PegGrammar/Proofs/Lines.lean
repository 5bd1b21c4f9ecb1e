import PegGrammar.Proofs.Reach
import PegGrammar.Text.LineIndex

/-!
# Every position has a line and a column

`LineIndex.lineCol` can go wrong in two ways: the offset lies past the end, or the text between
the start of its line and the offset cannot be cut out. Neither happens at a position of the text.
The starts of lines are positions themselves, because a line ends after a whole character, and the
entry that bisecting finds is never behind the offset it was asked for.

## Main results

* `reachesOffset_of_mem_lineStarts` — a line starts at a position
* `LineIndex.getD_bisect_le` — bisecting finds an entry up to the offset
* `LineIndex.exists_lineCol_eq_ok` — a position has a line and a column
-/

namespace PegGrammar

theorem Cursor.reaches_mk_append (offset : Nat) (front back : List Char) :
    (Cursor.mk offset (front ++ back)).Reaches ⟨offset + Text.byteLength front, back⟩ :=
  ⟨front, rfl, rfl⟩

/-- A line starts at a position of the text. -/
theorem reachesOffset_of_mem_lineStarts {offset s : Nat} {cs : List Char}
    (h : s ∈ lineStarts offset cs) : (Cursor.mk offset cs).ReachesOffset s := by
  fun_induction lineStarts offset cs with
  | case1 => exact absurd h List.not_mem_nil
  | case2 offset cs ih =>
    have hpair : (Cursor.mk offset ('\r' :: '\n' :: cs)).Reaches ⟨offset + 2, cs⟩ :=
      Cursor.reaches_mk_append offset ['\r', '\n'] cs
    rcases List.mem_cons.mp h with rfl | h
    · exact ⟨_, hpair, rfl⟩
    · exact hpair.reachesOffset (ih h)
  | case3 offset c cs _ hc ih =>
    have hline : (Cursor.mk offset (c :: cs)).Reaches ⟨offset + 1, cs⟩ := by
      rcases hc with rfl | rfl
      · exact Cursor.reaches_mk_append offset ['\n'] cs
      · exact Cursor.reaches_mk_append offset ['\r'] cs
    rcases List.mem_cons.mp h with rfl | h
    · exact ⟨_, hline, rfl⟩
    · exact hline.reachesOffset (ih h)
  | case4 offset c cs _ _ ih =>
    exact (Cursor.reaches_mk_append offset [c] cs).reachesOffset (ih h)

namespace LineIndex

@[simp] theorem of_text (text : List Char) : (of text).text = text := rfl

/-- Bisecting keeps its lower end at an entry that is at most the offset. -/
theorem getD_bisect_le {starts : Array Nat} {offset low high : Nat}
    (h : starts.getD low 0 ≤ offset) : starts.getD (bisect starts offset low high) 0 ≤ offset := by
  fun_induction bisect starts offset low high with
  | case1 low high _ hmid ih => exact ih hmid
  | case2 low high _ _ ih => exact ih h
  | case3 => exact h

/-- Every entry of the table is a position of the text, and so is the zero that stands for an entry
past its end. -/
theorem reachesOffset_getD_starts (text : List Char) (line : Nat) :
    (Cursor.start text).ReachesOffset ((of text).starts.getD line 0) := by
  have hstarts : ∀ s ∈ 0 :: lineStarts 0 text, (Cursor.start text).ReachesOffset s :=
    List.forall_mem_cons.mpr
      ⟨Cursor.reachesOffset_self _, fun s hs => reachesOffset_of_mem_lineStarts hs⟩
  rw [of, Array.getD_eq_getD_getElem?, List.getElem?_toArray]
  cases hline : (0 :: lineStarts 0 text)[line]? with
  | none => exact Cursor.reachesOffset_self _
  | some s => exact hstarts s (List.mem_of_getElem? hline)

/-- **Every position of a text has a line and a column.** -/
theorem exists_lineCol_eq_ok {text : List Char} {offset : Nat}
    (h : (Cursor.start text).ReachesOffset offset) : ∃ p, (of text).lineCol offset = .ok p := by
  obtain ⟨d, hd, rfl⟩ := h
  obtain ⟨c, hc, hstart⟩ := reachesOffset_getD_starts text ((of text).lineOf d.offset)
  have hle : (of text).starts.getD ((of text).lineOf d.offset) 0 ≤ d.offset :=
    getD_bisect_le (Nat.zero_le d.offset)
  obtain ⟨part, hpart, _⟩ :=
    Cursor.slice?_eq_some_of_reaches hc (hc.of_offset_le hd (hstart ▸ hle))
  refine ⟨⟨saturate ((of text).lineOf d.offset + 1), saturate (part.length + 1)⟩, ?_⟩
  rw [hstart] at hpart
  have hbound : ¬ Text.byteLength (of text).text < d.offset :=
    Nat.not_lt_of_le (Cursor.offset_le_byteLength hd)
  rw [lineCol, if_neg hbound]
  simp only [of_text, Text.slice, hpart, Except.map]

end LineIndex

end PegGrammar
