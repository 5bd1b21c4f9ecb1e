import Mathlib.Data.List.Chain
import Mathlib.Data.List.Infix

/-!
# Splitting a text

A text that was joined from parts with a separator between them can be split at the separator, and
gives the parts back as long as the separator is never found early. It can be found early within a
part, and also where a part ends with the beginning of the separator: a line feed at the end of a
paragraph makes one with the blank line behind it. `Text.Unbroken` excludes both.

## Main definitions

* `Text.parts` — the parts of a text between the places where a separator stands
* `Text.Unbroken` — a text behind which a separator is not found early

## Main results

* `Text.parts_intercalate` — splitting gives back what was joined
* `Text.intercalate_inj` — lines that were joined can be told from all others

## What is used of the library

Splitting is `String.split`, which looks for its pattern with the algorithm of Knuth, Morris and
Pratt. The library relates that search to `Model.split`, a search from one position to the next;
the proofs here are about the latter and speak of a position by the texts on its two sides.
-/

namespace PegGrammar.Text

open String String.Slice.Pattern String.Slice.Pattern.Model

/-- The parts of a text between the places where `sep` stands. The places are looked for from the
left, each behind the one before. -/
def parts (sep text : String) : List String := (text.split sep).toList.map Slice.copy

/-- Where `part` has `sep` behind it, `sep` does not stand any earlier. -/
def Unbroken (sep part : String) : Prop := ¬ sep.toList <:+: part.toList ++ sep.toList.dropLast

instance (sep part : String) : Decidable (Unbroken sep part) :=
  inferInstanceAs (Decidable (¬ _ <:+: _))

variable {sep part before after : String} {s : Slice} {start stop p : s.Pos}

/-- The separator begins nowhere in an unbroken part that has the separator behind it. -/
theorem Unbroken.not_isPrefix {front back : List Char} (h : Unbroken sep part)
    (hpart : part.toList = front ++ back) (hback : back ≠ []) (rest : List Char) :
    ¬ sep.toList <+: back ++ (sep.toList ++ rest) := by
  intro hbegins
  have hshort : back ++ sep.toList.dropLast <+: back ++ (sep.toList ++ rest) :=
    (List.prefix_append_right_inj back).mpr
      ((List.dropLast_prefix _).trans (List.prefix_append _ _))
  have hlength : sep.toList.length ≤ (back ++ sep.toList.dropLast).length := by
    have := List.length_pos_iff.mpr hback
    rw [List.length_append, List.length_dropLast]
    omega
  have hearly := List.prefix_of_prefix_length_le hbegins hshort hlength
  refine h ?_
  rw [hpart, List.append_assoc]
  exact hearly.isInfix.trans (List.suffix_append _ _).isInfix

/-! ### Positions in a text -/

/-- A separator that begins nowhere in `part` is not found on the way past `part`. -/
theorem not_matchesAt (hstart : start.Splits before (part ++ after))
    (hstop : stop.Splits (before ++ part) after)
    (hearly : ∀ front back : List Char, part.toList = front ++ back → back ≠ [] →
      ¬ sep.toList <+: back ++ after.toList)
    (hle : start ≤ p) (hlt : p < stop) : ¬ MatchesAt sep p := by
  rw [ForwardStringSearcher.matchesAt_iff_splits]
  rintro ⟨t, u, hp⟩
  obtain ⟨front, rfl, -⟩ := (hstart.le_iff_exists_eq_append hp).mp hle
  obtain ⟨back, hback, hpart, hu⟩ := (hp.lt_iff_exists_eq_append hstop).mp hlt
  rw [String.append_assoc, String.append_right_inj] at hpart
  refine hearly front.toList back.toList (by rw [hpart, String.toList_append])
    (String.toList_eq_nil_iff.not.mpr hback) ?_
  rw [← String.toList_append, ← hu, String.toList_append]
  exact List.prefix_append _ _

theorem copy_subslice (hstart : start.Splits before (part ++ after))
    (hstop : stop.Splits (before ++ part) after) (hle : start ≤ stop) :
    (s.subslice start stop hle).toSlice.copy = part :=
  (Slice.copy_slice_eq_iff_splits.mpr ⟨before, after, hstart, hstop⟩).2

/-- Splitting goes past a part in which the separator begins nowhere. -/
theorem split_eq_split_of_early [StrictPatternModel sep]
    (hstart : start.Splits before (part ++ after)) (hstop : stop.Splits (before ++ part) after)
    (hearly : ∀ front back : List Char, part.toList = front ++ back → back ≠ [] →
      ¬ sep.toList <+: back ++ after.toList) (hle : start ≤ stop) :
    Model.split sep start start (Slice.Pos.le_refl _) = Model.split sep start stop hle :=
  split_eq_of_not_matchesAt stop hle fun _ => not_matchesAt hstart hstop hearly

/-- What is split from a position on, when joined parts stand behind the position. -/
theorem map_copy_split [StrictPatternModel sep] {items : List String} (hne : items ≠ [])
    (h : ∀ item ∈ items, Unbroken sep item)
    (hstart : start.Splits before (sep.intercalate items)) :
    (Model.split sep start start (Slice.Pos.le_refl _)).map (·.toSlice.copy) = items := by
  induction items generalizing before start with
  | nil => exact absurd rfl hne
  | cons item items ih =>
    have hitem := h item List.mem_cons_self
    cases items with
    | nil =>
      rw [String.intercalate_singleton, ← String.append_empty (s := item)] at hstart
      have hstop := hstart.splits_rotateRight
      have hle := (hstart.le_iff_exists_eq_append hstop).mpr ⟨item, rfl, rfl⟩
      rw [split_eq_split_of_early hstart hstop (fun front back hpart hback => ?_) hle]
      · have hend := hstop.eq_endPos_iff.mpr rfl
        generalize hstart.rotateRight = stop at *
        subst hend
        rw [split_endPos, List.map_singleton, copy_subslice hstart hstop]
      · have hnot := hitem.not_isPrefix hpart hback []
        rw [String.toList_empty, List.append_nil]
        exact fun hbegins => hnot (hbegins.trans (List.prefix_append _ _))
    | cons next items =>
      rw [String.intercalate_cons_cons, String.append_assoc] at hstart
      have hstop := hstart.splits_rotateRight
      have hnext := hstop.splits_rotateRight
      have hle := (hstart.le_iff_exists_eq_append hstop).mpr ⟨item, rfl, rfl⟩
      have hmatch := ForwardStringSearcher.isLongestMatchAt_iff_splits.mpr ⟨_, _, hstop, hnext⟩
      rw [split_eq_split_of_early hstart hstop (fun front back hpart hback => ?_) hle,
        split_eq_of_isLongestMatchAt hmatch, List.map_cons, copy_subslice hstart hstop,
        ih (List.cons_ne_nil _ _) (fun item hitem => h item (List.mem_cons_of_mem _ hitem)) hnext]
      rw [String.toList_append]
      exact hitem.not_isPrefix hpart hback _

/-- **Splitting gives back what was joined**, when the separator is not found early. -/
theorem parts_intercalate (hsep : sep ≠ "") {items : List String} (hne : items ≠ [])
    (h : ∀ item ∈ items, Unbroken sep item) : parts sep (sep.intercalate items) = items := by
  have := ForwardStringSearcher.strictPatternModel hsep
  have := ForwardStringSearcher.lawfulToForwardSearcherModel hsep
  have hstart := Slice.splits_startPos (sep.intercalate items).toSlice
  rw [String.copy_toSlice] at hstart
  rw [parts, String.split_eq_split_toSlice, Slice.toList_split_eq_splitToSubslice,
    Slice.Pattern.toList_splitToSubslice_eq_modelSplit, List.map_map]
  exact map_copy_split hne h hstart

/-! ### Lines -/

/-- A text that makes one line: it is not empty and has no line feed in it. -/
def IsLine (line : String) : Prop := line ≠ "" ∧ '\n' ∉ line.toList

instance (line : String) : Decidable (IsLine line) := inferInstanceAs (Decidable (_ ∧ _))

theorem IsLine.unbroken {line : String} (h : IsLine line) : Unbroken "\n" line := by
  intro hfound
  rw [show "\n".toList = ['\n'] from rfl, List.dropLast_singleton, List.append_nil,
    List.singleton_infix_iff] at hfound
  exact h.2 hfound

theorem intercalate_ne_empty {lines : List String} (hne : lines ≠ [])
    (h : ∀ line ∈ lines, IsLine line) : "\n".intercalate lines ≠ "" := by
  match lines with
  | [line] => simpa using (h line List.mem_cons_self).1
  | line :: line' :: lines => simp [String.intercalate_cons_cons]

/-- Lines joined by line feeds can be told from all other lines that were joined. -/
theorem intercalate_inj {lines lines' : List String} (h : ∀ line ∈ lines, IsLine line)
    (h' : ∀ line ∈ lines', IsLine line) (heq : "\n".intercalate lines = "\n".intercalate lines') :
    lines = lines' := by
  by_cases hnil : lines = []
  · by_contra hne
    have hnil' : lines' ≠ [] := fun hnil' => hne (hnil.trans hnil'.symm)
    subst hnil
    exact intercalate_ne_empty hnil' h' heq.symm
  · have hnil' : lines' ≠ [] := by
      rintro rfl
      exact intercalate_ne_empty hnil h heq
    rw [← parts_intercalate (by decide) hnil fun line hline => (h line hline).unbroken, heq,
      parts_intercalate (by decide) hnil' fun line hline => (h' line hline).unbroken]

/-- Of two characters, not both are line feeds. -/
def NotBlank (c d : Char) : Prop := c = '\n' → d ≠ '\n'

theorem IsLine.isChain_toList_append {line : String} (h : IsLine line) :
    (line.toList ++ ['\n']).IsChain NotBlank := by
  have hne : ∀ c ∈ line.toList, c ≠ '\n' := fun c hc heq => h.2 (heq ▸ hc)
  refine List.isChain_append.mpr ⟨?_, List.isChain_singleton _, ?_⟩
  · refine List.isChain_iff_forall_rel_of_append_cons_cons.mpr fun c d front back heq hc => ?_
    exact absurd hc (hne c (by simp [heq]))
  · intro c hc d _ heq
    exact absurd heq (hne c (List.mem_of_mem_getLast? hc))

theorem IsLine.head?_ne {line : String} (h : IsLine line) {c : Char}
    (hc : c ∈ (line.toList ++ ['\n']).head?) : c ≠ '\n' := by
  obtain ⟨d, cs, hline⟩ := List.exists_cons_of_ne_nil (String.toList_eq_nil_iff.not.mpr h.1)
  rw [hline, List.cons_append, List.head?_cons, Option.mem_some_iff] at hc
  rintro rfl
  exact h.2 (by simp [hline, hc])

theorem toList_intercalate_append {lines : List String} (hne : lines ≠ []) :
    ("\n".intercalate lines).toList ++ ['\n'] = lines.flatMap (·.toList ++ ['\n']) := by
  induction lines with
  | nil => exact absurd rfl hne
  | cons line lines ih =>
    cases lines with
    | nil => simp
    | cons next lines =>
      rw [String.intercalate_cons_cons, String.toList_append, List.append_assoc,
        ih (List.cons_ne_nil _ _), String.toList_append, List.flatMap_cons]
      rfl

/-- Lines joined by line feeds have no blank line among them, nor do they get one when more text
stands behind a blank line. -/
theorem unbroken_intercalate {lines : List String} (hne : lines ≠ [])
    (h : ∀ line ∈ lines, IsLine line) : Unbroken "\n\n" ("\n".intercalate lines) := by
  intro hfound
  rw [show "\n\n".toList.dropLast = ['\n'] from rfl, toList_intercalate_append hne,
    List.flatMap_def] at hfound
  have hchain : (lines.map (·.toList ++ ['\n'])).flatten.IsChain NotBlank := by
    refine (List.isChain_flatten (by simp)).mpr ⟨?_, ?_⟩
    · intro l hl
      obtain ⟨line, hline, rfl⟩ := List.mem_map.mp hl
      exact (h line hline).isChain_toList_append
    · rw [List.isChain_map, List.isChain_iff_forall_rel_of_append_cons_cons]
      intro line next front back heq c _ d hd _
      exact (h next (by simp [heq])).head?_ne hd
  have hpair := List.IsChain.infix hchain hfound
  exact List.isChain_pair.mp hpair rfl rfl

end PegGrammar.Text
