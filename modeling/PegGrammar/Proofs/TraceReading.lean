import PegGrammar.Match.Event
import PegGrammar.Proofs.QuotedReading
import PegGrammar.Proofs.Splitting

/-!
# A trace determines its events

The lines of a trace show the names of rules as they are, and they are indented by what happened
before. Both could make events look alike: a name may hold blanks, signs and digits, so that it
looks like more of its line, and an event without a partner throws the indentation off. Neither
does. From the text of a trace one can tell which events it was made of, in which order.

## How a line is read

From both ends. In front are the blanks, then a sign that tells which kind of event it was. At the
end is a position, which is made of digits and has a sign in front that is none; before that, the
last letter of the verdict tells a match from a failure. What is left in the middle is the name,
whatever it holds.

How many blanks there are need not be known to read the rest, so that the lines can be read one by
one, each without the others. All that a trace leaves to be found out is where its lines end, and
for that the names must not have a line feed in them.

## Main definitions

* `Event.OnOneLine` — events whose names do not break a line
* `Trace.ShowsEvent` — a line that shows an event, at whatever depth

## Main results

* `Trace.eventLine_inj` — reading a line
* `Trace.exists_lines` — a trace has a line for each event
* `trace_determines_events` — traces with the same text have the same events
-/

namespace PegGrammar

variable {r s : List Char}

/-! ### Reading from the right -/

/-- **Reading a number at the end of a text**, behind something that is no digit. -/
theorem append_toString_inj {c : Char} (hc : c.isDigit = false) {m n : Nat}
    (h : r ++ c :: (toString m).toList = s ++ c :: (toString n).toList) : r = s ∧ m = n := by
  have hdigits : ∀ k : Nat, ∀ d ∈ (toString k).toList.reverse, d.isDigit = true := by
    intro k d hd
    rw [List.mem_reverse, Nat.toString_eq_repr, Nat.toList_repr] at hd
    exact Nat.isDigit_of_mem_toDigits (by decide) (by decide) hd
  have hstop : ∀ rest, StopsAt Char.isDigit (c :: rest) := fun _ => stopsAt_cons.mpr hc
  have hreverse := congrArg List.reverse h
  simp only [List.reverse_append, List.reverse_cons, List.append_assoc, List.singleton_append]
    at hreverse
  obtain ⟨hnumber, hrest⟩ :=
    append_inj_of_stopsAt (hdigits m) (hdigits n) (hstop _) (hstop _) hreverse
  have htext := congrArg (· ++ []) (List.reverse_inj.mp hnumber)
  exact ⟨List.reverse_inj.mp (List.cons.inj hrest).2,
    (toString_append_inj (stopsAt_nil _) (stopsAt_nil _) htext).1⟩

/-! ### Lines -/

namespace Event

/-- The name of the rule in the event, if there is one, has no line feed in it. -/
def OnOneLine : Event → Prop
  | .enter rule _ | .exit rule _ _ => '\n' ∉ rule.toList
  | .backtrack _ _ => True

instance (e : Event) : Decidable e.OnOneLine :=
  match e with
  | .enter rule _ => inferInstanceAs (Decidable ('\n' ∉ rule.toList))
  | .exit rule _ _ => inferInstanceAs (Decidable ('\n' ∉ rule.toList))
  | .backtrack _ _ => inferInstanceAs (Decidable True)

/-- How the line of leaving a rule tells a match from a failure. -/
def verdict (success : Bool) : List Char := if success then " ok ".toList else " fail ".toList

/-- The line of an event behind its indentation. -/
def lineText : Event → List Char
  | .enter rule position =>
    '>' :: ' ' :: (rule.toList ++ [' '] ++ '@' :: (toString position).toList)
  | .exit rule position success =>
    '<' :: ' ' :: (rule.toList ++ verdict success ++ '@' :: (toString position).toList)
  | .backtrack failure restart =>
    '~' :: (" backtrack ".toList
      ++ ((toString failure).toList ++ (" -> ".toList ++ (toString restart).toList)))

theorem append_verdict_inj {success success' : Bool}
    (h : r ++ verdict success = s ++ verdict success') : r = s ∧ success = success' := by
  have hreverse := congrArg List.reverse h
  rw [List.reverse_append, List.reverse_append] at hreverse
  -- Behind the blank at the end stands the last letter of the verdict.
  have hsame : success = success' := by
    match success, success' with
    | true, true | false, false => rfl
    | true, false | false, true => cases (List.cons.inj hreverse).2
  subst hsame
  exact ⟨List.append_cancel_right h, rfl⟩

/-- **Reading the line of an event** behind its indentation. -/
theorem lineText_inj {e e' : Event} (h : e.lineText = e'.lineText) : e = e' := by
  cases e with
  | enter rule position =>
    cases e' with
    | enter rule' position' =>
      simp only [lineText, List.cons.injEq, true_and] at h
      obtain ⟨hrule, rfl⟩ := append_toString_inj (by decide) h
      rw [String.toList_inj.mp (List.append_cancel_right hrule)]
    | exit => cases (List.cons.inj h).1
    | backtrack => cases (List.cons.inj h).1
  | exit rule position success =>
    cases e' with
    | enter => cases (List.cons.inj h).1
    | exit rule' position' success' =>
      simp only [lineText, List.cons.injEq, true_and] at h
      obtain ⟨hrule, rfl⟩ := append_toString_inj (by decide) h
      obtain ⟨hname, rfl⟩ := append_verdict_inj hrule
      rw [String.toList_inj.mp hname]
    | backtrack => cases (List.cons.inj h).1
  | backtrack failure restart =>
    cases e' with
    | enter => cases (List.cons.inj h).1
    | exit => cases (List.cons.inj h).1
    | backtrack failure' restart' =>
      have harrow : ∀ rest, StopsAt Char.isDigit (" -> ".toList ++ rest) :=
        fun _ => stopsAt_cons.mpr rfl
      have hnumbers := List.append_cancel_left (List.cons.inj h).2
      obtain ⟨rfl, hrest⟩ := toString_append_inj (harrow _) (harrow _) hnumbers
      have hlast := congrArg (· ++ []) (List.append_cancel_left hrest)
      rw [(toString_append_inj (stopsAt_nil _) (stopsAt_nil _) hlast).1]

theorem lineFeed_not_mem_lineText {e : Event} (h : e.OnOneLine) : '\n' ∉ e.lineText := by
  have hnumber : ∀ n : Nat, '\n' ∉ Nat.toDigits 10 n := fun n hfeed =>
    absurd (Nat.isDigit_of_mem_toDigits (by decide) (by decide) hfeed) (by decide)
  cases e with
  | enter rule position =>
    rw [OnOneLine] at h
    simp [lineText, hnumber, h]
  | exit rule position success =>
    rw [OnOneLine] at h
    cases success <;> simp [lineText, verdict, hnumber, h]
  | backtrack failure restart => simp [lineText, hnumber]

end Event

namespace Trace

variable {events events' : List Event} {line : String}

theorem toList_indented (depth : Nat) (line : String) :
    (indented depth line).toList = List.replicate (2 * depth) ' ' ++ line.toList := by
  have hblanks : (List.replicate depth "  ").flatMap String.toList
      = List.replicate (2 * depth) ' ' := by
    induction depth with
    | zero => rfl
    | succ depth ih =>
      rw [List.replicate_succ, List.flatMap_cons, ih, Nat.mul_succ, Nat.add_comm,
        List.replicate_add]
      rfl
  rw [indented, String.toList_append, String.toList_join, hblanks]

theorem toList_eventLine (depth : Nat) (e : Event) :
    (eventLine depth e).toList = List.replicate (2 * depth) ' ' ++ e.lineText := by
  cases e with
  | enter rule position => simp [eventLine, toList_indented, Event.lineText]
  | exit rule position success =>
    cases success <;> simp [eventLine, toList_indented, Event.lineText, Event.verdict]
  | backtrack failure restart => simp [eventLine, toList_indented, Event.lineText]

/-- **Reading a line.** It tells the depth and the event. -/
theorem eventLine_inj {depth depth' : Nat} {e e' : Event}
    (h : eventLine depth e = eventLine depth' e') : depth = depth' ∧ e = e' := by
  have hblank : ∀ n, ∀ c ∈ List.replicate n ' ', (c == ' ') = true := by
    intro n c hc
    rw [List.eq_of_mem_replicate hc]
    rfl
  have hsign : ∀ e : Event, StopsAt (· == ' ') e.lineText := by
    intro e
    cases e <;> rintro c ⟨⟩ <;> rfl
  have htext := congrArg String.toList h
  rw [toList_eventLine, toList_eventLine] at htext
  obtain ⟨hblanks, hline⟩ :=
    append_inj_of_stopsAt (hblank _) (hblank _) (hsign e) (hsign e') htext
  have hlength := congrArg List.length hblanks
  rw [List.length_replicate, List.length_replicate] at hlength
  exact ⟨by omega, Event.lineText_inj hline⟩

/-! ### Traces -/

/-- The line shows the event, at whatever depth. -/
def ShowsEvent (e : Event) (line : String) : Prop := ∃ depth, line = eventLine depth e

theorem ShowsEvent.isLine {e : Event} (h : ShowsEvent e line) (he : e.OnOneLine) :
    Text.IsLine line := by
  obtain ⟨depth, rfl⟩ := h
  refine ⟨fun hempty => ?_, fun hfeed => ?_⟩
  · have htext := toList_eventLine depth e
    rw [hempty] at htext
    cases e <;> simp [Event.lineText] at htext
  · rw [toList_eventLine] at hfeed
    rcases List.mem_append.mp hfeed with hfeed | hfeed
    · cases List.eq_of_mem_replicate hfeed
    · exact Event.lineFeed_not_mem_lineText he hfeed

/-- **Recording an event** adds one line, and the line shows it. -/
theorem exists_line_record (t : Trace) (e : Event) :
    ∃ line, (t.record e).lines = t.lines.push line ∧ ShowsEvent e line := by
  cases e <;> exact ⟨_, rfl, _, rfl⟩

/-- **A trace has a line for each event**, behind the lines that it had before. -/
theorem exists_lines (t : Trace) (events : List Event) :
    ∃ lines, (events.foldl record t).lines.toList = t.lines.toList ++ lines ∧
      List.Forall₂ ShowsEvent events lines := by
  induction events generalizing t with
  | nil => exact ⟨[], (List.append_nil _).symm, .nil⟩
  | cons e events ih =>
    obtain ⟨line, hline, hshows⟩ := exists_line_record t e
    obtain ⟨lines, hlines, hall⟩ := ih (t.record e)
    refine ⟨line :: lines, ?_, .cons hshows hall⟩
    rw [List.foldl_cons, hlines, hline, Array.toList_push, List.append_assoc]
    rfl

/-- Lines show no other events than those they were made for. -/
theorem eq_of_showsEvent {lines : List String} (h : List.Forall₂ ShowsEvent events lines)
    (h' : List.Forall₂ ShowsEvent events' lines) : events = events' := by
  induction h generalizing events' with
  | nil => cases h'; rfl
  | cons hshows _ ih =>
    obtain _ | ⟨hshows', hrest⟩ := h'
    obtain ⟨depth, rfl⟩ := hshows
    obtain ⟨depth', hline⟩ := hshows'
    rw [(eventLine_inj hline).2, ih hrest]

/-- The text of a trace of events whose names do not break a line is made of lines that show the
events. -/
theorem exists_text_eq (h : ∀ e ∈ events, e.OnOneLine) :
    ∃ lines, (ofEvents events).text = "\n".intercalate lines ∧
      (∀ line ∈ lines, Text.IsLine line) ∧ List.Forall₂ ShowsEvent events lines := by
  obtain ⟨lines, hlines, hall⟩ := exists_lines empty events
  refine ⟨lines, congrArg ("\n".intercalate ·) hlines, ?_, hall⟩
  clear hlines
  induction hall with
  | nil => exact nofun
  | cons hshows _ ih =>
    rw [List.forall_mem_cons] at h ⊢
    exact ⟨hshows.isLine h.1, ih h.2⟩

end Trace

/-- **A trace determines its events**, if no name in them has a line feed: events that leave the
same text are the same, in the same order, whether or not rules are entered and left in pairs. -/
theorem trace_determines_events {events events' : List Event} (h : ∀ e ∈ events, e.OnOneLine)
    (h' : ∀ e ∈ events', e.OnOneLine)
    (htext : (Trace.ofEvents events).text = (Trace.ofEvents events').text) : events = events' := by
  obtain ⟨lines, heq, hlines, hall⟩ := Trace.exists_text_eq h
  obtain ⟨lines', heq', hlines', hall'⟩ := Trace.exists_text_eq h'
  rw [heq, heq'] at htext
  obtain rfl := Text.intercalate_inj hlines hlines' htext
  exact Trace.eq_of_showsEvent hall hall'

/-- A name with a line feed makes one event look like two. -/
example :
    (Trace.ofEvents [.exit "a ok @1\n< b" 2 true]).text
      = (Trace.ofEvents [.exit "a" 1 true, .exit "b" 2 true]).text := by
  decide +kernel

/-! ### Names that look like more of a line -/

/-- A rule is left that was never entered, and two are entered and not left. The names look like
what stands behind a name, or like a line of their own. -/
def disguised : List Event :=
  [.exit "a ok @1" 2 false, .enter "< b fail @3" 40, .backtrack 50 40, .enter "" 41]

/-- The same events, told from the last to the first. -/
def toldBackwards : List Event :=
  [.enter "" 41, .backtrack 50 40, .enter "< b fail @3" 40, .exit "a ok @1" 2 false]

/-- The trace has four lines, and no other events have these lines. -/
theorem disguised_trace :
    (∀ e ∈ disguised, e.OnOneLine) ∧ (∀ e ∈ toldBackwards.reverse, e.OnOneLine) ∧
    (Trace.ofEvents disguised).text
      = "< a ok @1 fail @2\n> < b fail @3 @40\n  ~ backtrack 50 -> 40\n  >  @41" ∧
    (Trace.ofEvents toldBackwards.reverse).text
      = "< a ok @1 fail @2\n> < b fail @3 @40\n  ~ backtrack 50 -> 40\n  >  @41" ∧
    disguised = toldBackwards.reverse := by
  have hnames : ∀ e ∈ disguised, e.OnOneLine := by decide
  have hnames' : ∀ e ∈ toldBackwards.reverse, e.OnOneLine := by decide
  have htext : (Trace.ofEvents disguised).text
      = "< a ok @1 fail @2\n> < b fail @3 @40\n  ~ backtrack 50 -> 40\n  >  @41" := by
    decide +kernel
  have htext' : (Trace.ofEvents toldBackwards.reverse).text
      = "< a ok @1 fail @2\n> < b fail @3 @40\n  ~ backtrack 50 -> 40\n  >  @41" := by
    decide +kernel
  exact ⟨hnames, hnames', htext, htext',
    trace_determines_events hnames hnames' (htext.trans htext'.symm)⟩

end PegGrammar
