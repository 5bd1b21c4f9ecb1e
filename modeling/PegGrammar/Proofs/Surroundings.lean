import PegGrammar.Parse.Report
import PegGrammar.Proofs.Observation

/-!
# What is shown around a span

A window cuts a text at two places and shows some of what stands on either side. Offsets count
bytes and the width of a window counts characters, so neither can be compared with the other; what
can be said is that the window shows the longest pieces that are not too long (`Longest`), and that
the three pieces stand side by side in the source.

There is no window exactly if the source cannot be cut at both places, and the only way to go wrong
is to cut at two places in the wrong order. The errors of a parse never do: their spans end where
they start or behind it. So a report can be made for every error and every source, and if the
source is the text that was parsed the report has a window in it.

## Where a window ends

`Window.of?` goes through the offsets of characters, backwards in front of the span and forwards
behind it, and cuts the source at the offset it comes to. `firstByte_eq` and `endByte_eq` say which
characters stand in front of these offsets. After that offsets are not mentioned again: what is
shown on either side is the end of one text and the beginning of another.

## Main definitions

* `Text.Longest` — the longest text of a kind with at most so many characters
* `Text.lastChars` — the end of a text, as `List.take` is its beginning
* `Window.Shows` — what a window shows of a source

## Main results

* `Window.of?_eq` — what is cut out of a source around a span
* `Window.of?_eq_some`, `of?_eq_none_iff`, `of?_eq_error` — the three cases
* `window_shows_surroundings` — windows of all spans, and the reports of errors
-/

namespace PegGrammar

/-! ### The longest piece -/

/-- The text is of a kind, has at most `n` characters, and is not shorter than another such text. -/
structure Text.Longest (n : Nat) (kind : List Char → Prop) (part : List Char) : Prop where
  /-- It is of the kind. -/
  holds : kind part
  /-- It is not too long. -/
  length_le : part.length ≤ n
  /-- It could not be longer. -/
  longest : ∀ other, kind other → other.length ≤ n → other.length ≤ part.length

namespace Text

/-- The last `n` characters of a text, or all of it if it has fewer. -/
def lastChars (n : Nat) (cs : List Char) : List Char := cs.drop (cs.length - n)

/-- No suffix with at most `n` characters is longer than the last `n`, so the piece that is shown in
front of a span is determined by its being the longest. -/
theorem longest_lastChars (n : Nat) (cs : List Char) : Longest n (· <:+ cs) (lastChars n cs) where
  holds := List.drop_suffix _ cs
  length_le := by
    rw [lastChars, List.length_drop]
    omega
  longest other hother hlength := by
    have := hother.length_le
    rw [lastChars, List.length_drop]
    omega

/-- The same for the first `n` characters and the piece behind the span. -/
theorem longest_take (n : Nat) (cs : List Char) : Longest n (· <+: cs) (cs.take n) where
  holds := List.take_prefix n cs
  length_le := List.length_take_le n cs
  longest other hother hlength := by
    have := hother.length_le
    rw [List.length_take]
    omega

/-! ### From characters to bytes

A text is cut by bytes, and its characters are numbered. `charIndices` leads from the numbers to the
bytes. -/

/-- There is an offset for each character, and none for the end of the text. -/
theorem length_charIndices (cs : List Char) : (charIndices cs).length = cs.length := by
  have hfrom : ∀ i, (charIndicesFrom i cs).length = cs.length := by
    induction cs with
    | nil => exact fun _ => rfl
    | cons c cs ih => exact fun i => congrArg (· + 1) (ih _)
  exact hfrom 0

/-- A character begins where those before it end. -/
theorem getElem?_charIndicesFrom (i : Nat) (cs : List Char) (n : Nat) :
    (charIndicesFrom i cs)[n]? = cs[n]?.map fun c => (i + byteLength (cs.take n), c) := by
  induction cs generalizing i n with
  | nil => simp [charIndicesFrom]
  | cons c cs ih =>
    cases n with
    | zero => simp [charIndicesFrom]
    | succ n => simp [charIndicesFrom, ih, Nat.add_assoc]

/-- The offset of a character, or of the end of the text if there are not that many, is the length
of the characters before it. -/
theorem elim_charIndices (i : Nat) (cs : List Char) (n : Nat) :
    (charIndices cs)[n]?.elim (i + byteLength cs) (i + ·.1) = i + byteLength (cs.take n) := by
  rw [charIndices, getElem?_charIndicesFrom]
  cases h : cs[n]? with
  | none => rw [List.take_of_length_le (List.getElem?_eq_none_iff.mp h)]; rfl
  | some c => simp

/-- A piece of a text is cut out between its two ends. -/
theorem slice_append (front part back : List Char) :
    slice (front ++ part ++ back) (byteLength front) (byteLength (front ++ part)) = .ok part := by
  rw [slice, slice?_eq_some_iff.mpr ⟨front, back, rfl, rfl, (byteLength_append front part).symm⟩]

end Text

/-! ### Windows -/

namespace Window

/-- The window shows the span in the source: what the span cuts out, the longest piece of at most
`n` characters right before it and the longest right after it. -/
def Shows (w : Window) (source : List Char) (span : Span) (n : Nat) : Prop :=
  ∃ front back, source = front ++ w.focus.toList ++ back ∧
    Text.byteLength front = span.start.toNat ∧
    Text.byteLength (front ++ w.focus.toList) = span.stop.toNat ∧
    Text.Longest n (· <:+ front) w.before.toList ∧ Text.Longest n (· <+: back) w.after.toList

variable {w : Window} {source : List Char} {span : Span} {n : Nat}

/-- What a window shows is one piece of the source. -/
theorem Shows.isInfix (h : w.Shows source span n) :
    (w.before ++ w.focus ++ w.after).toList <:+: source := by
  obtain ⟨front, back, rfl, -, -, hbefore, hafter⟩ := h
  obtain ⟨far, rfl⟩ := hbefore.holds
  obtain ⟨beyond, rfl⟩ := hafter.holds
  exact ⟨far, beyond, by simp⟩

/-- A window begins where the last `n` characters in front of the span do. Going through the
characters backwards and stopping at the last of up to `n` is counting `n` of them off the end. -/
theorem firstByte_eq (front : List Char) (n : Nat) :
    firstByte front (Text.byteLength front) n
      = Text.byteLength (front.take (front.length - n)) := by
  rw [firstByte, List.take_reverse, List.getLast?_reverse, List.head?_drop,
    Text.length_charIndices]
  simpa using Text.elim_charIndices 0 front (front.length - n)

/-- A window ends where the first `n` characters behind the span do. If there is no character after
them, the end of the source is where they end. -/
theorem endByte_eq (front back : List Char) (n : Nat) :
    endByte (front ++ back) back (Text.byteLength front) n
      = Text.byteLength (front ++ back.take n) := by
  rw [endByte, Text.byteLength_append, Text.byteLength_append]
  exact Text.elim_charIndices (Text.byteLength front) back n

/-- **The window of a source that can be cut at both ends of a span.** Only the span itself may have
no text. What stands on either side is found in the part of the source in front of the span, and in
that behind it, in whatever order the two cuts are. -/
theorem of?_eq {front rest far back : List Char} (hsource : source = front ++ rest)
    (hstart : Text.byteLength front = span.start.toNat) (hsource' : source = far ++ back)
    (hstop : Text.byteLength far = span.stop.toNat) (n : Nat) :
    of? source span n = (span.slice source).map fun part =>
      some ⟨String.ofList (Text.lastChars n front), String.ofList part,
        String.ofList (back.take n)⟩ := by
  have hfront : Text.slice source 0 span.start.toNat = .ok front := by
    rw [hsource, ← hstart]
    exact Text.slice_append [] front rest
  have hbefore : Text.slice source (firstByte front span.start.toNat n) span.start.toNat
      = .ok (Text.lastChars n front) := by
    rw [hsource, ← hstart, firstByte_eq]
    have hsplit : front.take (front.length - n) ++ Text.lastChars n front = front :=
      List.take_append_drop _ front
    have hslice := Text.slice_append (front.take (front.length - n)) (Text.lastChars n front) rest
    rwa [hsplit] at hslice
  have hback : Text.slice source span.stop.toNat (Text.byteLength source) = .ok back := by
    rw [hsource', ← hstop]
    have hslice := Text.slice_append far back []
    rwa [List.append_nil] at hslice
  have hafter : Text.slice source span.stop.toNat (endByte source back span.stop.toNat n)
      = .ok (back.take n) := by
    rw [hsource', ← hstop, endByte_eq]
    have hslice := Text.slice_append far (back.take n) (back.drop n)
    rwa [List.append_assoc, List.take_append_drop] at hslice
  have hcut : Text.isBoundary source span.start.toNat = true :=
    Text.isBoundary_iff.mpr ⟨front, rest, hsource, hstart⟩
  have hcut' : Text.isBoundary source span.stop.toNat = true :=
    Text.isBoundary_iff.mpr ⟨far, back, hsource', hstop⟩
  rw [of?, hcut, hcut']
  simp only [hfront, hback, hbefore, hafter, bind, Except.bind, pure, Except.pure, Bool.not_true,
    Bool.or_self, Bool.false_eq_true, if_false]
  cases span.slice source <;> rfl

/-- **The window of a span in order.** -/
theorem of?_eq_some (hstart : Text.isBoundary source span.start.toNat = true)
    (hstop : Text.isBoundary source span.stop.toNat = true) (horder : span.start ≤ span.stop)
    (n : Nat) : ∃ w, of? source span n = .ok (some w) ∧ w.Shows source span n := by
  obtain ⟨front, part, back, rfl, hfront, hpart⟩ :=
    Cursor.exists_split_of_isBoundary hstart hstop (UInt32.le_iff_toNat_le.mp horder)
  have hslice : span.slice (front ++ part ++ back) = .ok part := by
    rw [Span.slice, ← hfront, ← hpart]
    exact Text.slice_append front part back
  refine ⟨⟨String.ofList (Text.lastChars n front), String.ofList part,
    String.ofList (back.take n)⟩, ?_, ?_⟩
  · rw [of?_eq (List.append_assoc front part back) hfront rfl hpart, hslice]
    rfl
  · refine ⟨front, back, by simp, hfront, by simpa using hpart, ?_, ?_⟩
    · simpa using Text.longest_lastChars n front
    · simpa using Text.longest_take n back

/-- The source cannot be cut at both ends of the span. -/
theorem of?_eq_none (h : Text.isBoundary source span.start.toNat = false ∨
    Text.isBoundary source span.stop.toNat = false) (n : Nat) : of? source span n = .ok none := by
  have hcut : (!Text.isBoundary source span.start.toNat
      || !Text.isBoundary source span.stop.toNat) = true := by
    rcases h with h | h <;> simp [h]
  rw [of?, if_pos hcut]
  rfl

/-- The ends of the span are in the wrong order. The rest of the window could be shown. -/
theorem of?_eq_error (hstart : Text.isBoundary source span.start.toNat = true)
    (hstop : Text.isBoundary source span.stop.toNat = true) (horder : span.stop < span.start)
    (n : Nat) :
    of? source span n = .error (.badSlice span.start.toNat span.stop.toNat) := by
  obtain ⟨front, rest, hsource, hfront⟩ := Text.isBoundary_iff.mp hstart
  obtain ⟨far, back, hsource', hfar⟩ := Text.isBoundary_iff.mp hstop
  have hslice : Text.slice? source span.start.toNat span.stop.toNat = none := by
    rw [Text.slice?, if_neg (Nat.not_le.mpr (UInt32.lt_iff_toNat_lt.mp horder))]
  rw [of?_eq hsource hfront hsource' hfar, Span.slice, Text.slice, hslice]
  rfl

/-- A window is missing exactly if one of the cuts would fall outside the source or inside a
character. In particular a window of no characters is not a missing one. -/
theorem of?_eq_none_iff :
    of? source span n = .ok none ↔ Text.isBoundary source span.start.toNat = false ∨
      Text.isBoundary source span.stop.toNat = false := by
  refine ⟨fun h => ?_, fun h => of?_eq_none h n⟩
  by_contra hcut
  simp only [not_or, Bool.not_eq_false] at hcut
  by_cases horder : span.start ≤ span.stop
  · obtain ⟨w, hw, -⟩ := of?_eq_some hcut.1 hcut.2 horder n
    cases h.symm.trans hw
  · cases h.symm.trans (of?_eq_error hcut.1 hcut.2 (UInt32.not_le.mp horder) n)

/-- Cutting the span itself is the only one of the five cuts that can go wrong, and it does so for
spans in the wrong order only. -/
theorem exists_of?_eq_error_iff :
    (∃ fault, of? source span n = .error fault) ↔
      (Text.isBoundary source span.start.toNat = true ∧
        Text.isBoundary source span.stop.toNat = true) ∧ span.stop < span.start := by
  constructor
  · rintro ⟨fault, h⟩
    have hcut : Text.isBoundary source span.start.toNat = true ∧
        Text.isBoundary source span.stop.toNat = true := by
      by_contra hcut
      rw [not_and_or, Bool.not_eq_true, Bool.not_eq_true] at hcut
      cases h.symm.trans (of?_eq_none hcut n)
    refine ⟨hcut, ?_⟩
    by_contra horder
    obtain ⟨w, hw, -⟩ := of?_eq_some hcut.1 hcut.2 (UInt32.not_lt.mp horder) n
    cases h.symm.trans hw
  · rintro ⟨⟨hstart, hstop⟩, horder⟩
    exact ⟨_, of?_eq_error hstart hstop horder n⟩

end Window

/-! ### Reports -/

namespace ParseError

variable {g : Grammar} {text : String} {err : ParseError} {source : List Char} {n : Nat}

/-- A report is the message with the window below it, the span in brackets. -/
theorem withContext_of_some {w : Window} (h : Window.of? source err.span n = .ok (some w)) :
    err.withContext source n = .ok (err.message ++ "\n\nContext:\n  ..." ++ w.before
      ++ "[" ++ w.focus ++ "]" ++ w.after ++ "...") := by
  rw [withContext, h]
  rfl

/-- Without a window the report is the message alone, which is not an error of its own. -/
theorem withContext_of_none (h : Window.of? source err.span n = .ok none) :
    err.withContext source n = .ok err.message := by
  rw [withContext, h]
  rfl

end ParseError

/-- The errors of a parse have their spans in order, whatever source they are shown in. This is why
a report for them never goes wrong. -/
theorem Grammar.Answers.span_le {g : Grammar} {text : String} {err : ParseError}
    (h : g.Answers text (.error err)) : err.span.start ≤ err.span.stop := by
  obtain ⟨i, j, hreports, -, -, horder⟩ := h.exists_reports
  rw [UInt32.le_iff_toNat_le, hreports.start_eq, hreports.stop_eq]
  omega

/-- **A window shows what surrounds a span.**

* There is no window exactly if one of the ends of the span is past the end of the source or inside
  a character of it.
* Otherwise the window of a span in order shows the span, with the longest pieces of at most `n`
  characters on either side, and all that it shows is one piece of the source.
* Asking for a window is a fault exactly if both ends are positions of the source in the wrong
  order.

The errors of a parse can be reported with every source and every width, and with the text that was
parsed the report shows the window of the error. -/
theorem window_shows_surroundings :
    (∀ (source : List Char) (span : Span) (n : Nat),
      (Window.of? source span n = .ok none ↔
        (Text.byteLength source < span.start.toNat ∨
          Text.isBoundary source span.start.toNat = false) ∨
        (Text.byteLength source < span.stop.toNat ∨
          Text.isBoundary source span.stop.toNat = false)) ∧
      (Text.isBoundary source span.start.toNat = true →
        Text.isBoundary source span.stop.toNat = true → span.start ≤ span.stop →
        ∃ w, Window.of? source span n = .ok (some w) ∧ w.Shows source span n ∧
          (w.before ++ w.focus ++ w.after).toList <:+: source) ∧
      ((∃ fault, Window.of? source span n = .error fault) ↔
        (Text.isBoundary source span.start.toNat = true ∧
          Text.isBoundary source span.stop.toNat = true) ∧ span.stop < span.start)) ∧
    ∀ (g : Grammar) (text : String) (err : ParseError), g.Answers text (.error err) →
      (∀ (source : List Char) (n : Nat), ∃ report, err.withContext source n = .ok report) ∧
      ∀ n, ∃ w, Window.of? text.toList err.span n = .ok (some w) ∧
        w.Shows text.toList err.span n ∧
        err.withContext text.toList n = .ok (err.message ++ "\n\nContext:\n  ..." ++ w.before
          ++ "[" ++ w.focus ++ "]" ++ w.after ++ "...") := by
  refine ⟨fun source span n => ⟨?_, ?_, Window.exists_of?_eq_error_iff⟩, ?_⟩
  · rw [or_iff_right_of_imp Text.isBoundary_eq_false_of_lt,
      or_iff_right_of_imp Text.isBoundary_eq_false_of_lt]
    exact Window.of?_eq_none_iff
  · intro hstart hstop horder
    obtain ⟨w, hw, hshows⟩ := Window.of?_eq_some hstart hstop horder n
    exact ⟨w, hw, hshows, hshows.isInfix⟩
  · intro g text err h
    refine ⟨fun source n => ?_, fun n => ?_⟩
    · cases hw : Window.of? source err.span n with
      | error fault =>
        have horder := (Window.exists_of?_eq_error_iff.mp ⟨fault, hw⟩).2
        exact absurd h.span_le (UInt32.not_le.mpr horder)
      | ok shown =>
        cases shown with
        | none => exact ⟨_, err.withContext_of_none hw⟩
        | some w => exact ⟨_, err.withContext_of_some hw⟩
    · obtain ⟨i, j, hreports, hi, hj, -⟩ := h.exists_reports
      rw [← hreports.start_eq] at hi
      rw [← hreports.stop_eq] at hj
      obtain ⟨w, hw, hshows⟩ := Window.of?_eq_some hi hj h.span_le n
      exact ⟨w, hw, hshows, err.withContext_of_some hw⟩

/-- The error of a syllable without its consonant. -/
def syllableError : ParseError := ⟨.noMatch, .empty 2, ⟨1, 2⟩⟩

/-- A window among characters of two bytes, and an error that is shown in the text it comes from and
only named where that text is not at hand. -/
theorem syllableError_shown :
    Window.of? "äöü!xyz".toList (.of 6 7) 2 = .ok (some ⟨"öü", "!", "xy"⟩) ∧
    Window.Shows ⟨"öü", "!", "xy"⟩ "äöü!xyz".toList (.of 6 7) 2 ∧
    syllable.Answers "éé" (.error syllableError) ∧
    syllableError.withContext "éé".toList 1
      = .ok "cannot parse input at line 1 column 2\n\nContext:\n  ...é[]é..." ∧
    ∃ report, syllableError.withContext "s".toList 1 = .ok report := by
  obtain ⟨hwindow, hreport⟩ := window_shows_surroundings
  have haccents : Window.of? "äöü!xyz".toList (.of 6 7) 2 = .ok (some ⟨"öü", "!", "xy"⟩) := by
    decide +kernel
  have hanswers : syllable.Answers "éé" (.error syllableError) :=
    Grammar.answers_of_parse (by decide +kernel)
  have hshown : Window.of? "éé".toList syllableError.span 1 = .ok (some ⟨"é", "", "é"⟩) := by
    decide +kernel
  obtain ⟨w, hw, hshows, -⟩ := (hwindow "äöü!xyz".toList (.of 6 7) 2).2.1 (by decide) (by decide)
    (by decide)
  obtain ⟨hall, hown⟩ := hreport syllable "éé" syllableError hanswers
  obtain ⟨w', hw', -, htext⟩ := hown 1
  cases haccents.symm.trans hw
  cases hshown.symm.trans hw'
  exact ⟨haccents, hshows, hanswers, htext.trans (by decide +kernel), hall "s".toList 1⟩

end PegGrammar
