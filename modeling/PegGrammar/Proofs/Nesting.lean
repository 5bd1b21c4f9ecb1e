import PegGrammar.Proofs.Observation

/-!
# Traces are well nested

The events of a parse are those of calls within calls: a rule is left before the rule around it
is, under the name by which it was entered, and an alternative is given up only inside a rule.
A trace shows the nesting by indentation, and it does so faithfully because it never has to close
a rule that is not open.

## Two descriptions

`Nested start events` is the bracket grammar: inside a rule entered at `start` there are whole
calls of further rules and alternatives given up. It is what the recursion of the engine gives,
call by call. `WellNested` is about single events: each of them is in place among the rules that
are open when it happens, `openRules`. It is what an observer can check as it goes. The first is
proved of every course of a match, and the second follows.

## Main definitions

* `Nested` — events inside a rule
* `openRules`, `Event.InPlace`, `WellNested` — events among the rules open at the time
* `Trace.Shows` — what a trace makes of events

## Main results

* `Engine.Runs.nested` — the events of a match are nested
* `Nested.eachInPlace` — nested events are in place
* `WellNested.shows` — a trace of well-nested events is indented by the rules open
* `parse_events_nested` — the events of a parse
-/

namespace PegGrammar

open Engine

/-! ### Brackets -/

/-- Events inside a rule that was entered at `start`: whole calls of rules, one after the other or
within each other, and alternatives given up. -/
inductive Nested : Nat → List Event → Prop
  /-- Nothing happens. -/
  | nil {start : Nat} : Nested start []
  /-- An alternative is given up for one that starts inside the rule, further back or at the same
  place. -/
  | backtrack {start failure restart : Nat} {events : List Event} :
    start ≤ restart → restart ≤ failure → Nested start events →
    Nested start (.backtrack failure restart :: events)
  /-- A rule is entered, and left under the same name, further on or at the same place. -/
  | call {start position stop : Nat} {name : String} {success : Bool}
      {inner events : List Event} :
    start ≤ position → Nested position inner → position ≤ stop → Nested start events →
    Nested start (.enter name position :: inner ++ .exit name stop success :: events)

theorem Nested.append {start : Nat} {events more : List Event} (h : Nested start events)
    (hmore : Nested start more) : Nested start (events ++ more) := by
  induction h with
  | nil => exact hmore
  | backtrack hstart hle _ ih => exact .backtrack hstart hle (ih hmore)
  | call hstart hinner hle _ _ ih =>
    rw [List.append_assoc, List.cons_append]
    exact .call hstart hinner hle (ih hmore)

/-! ### The events of a match -/

namespace Engine

@[simp] theorem eventsOf_append (steps more : List Step) :
    eventsOf (steps ++ more) = eventsOf steps ++ eventsOf more :=
  List.filterMap_append

@[simp] theorem eventsOf_framed (e : Expr) (c : Cursor) (body : List Step)
    (o : Outcome (Node Unit)) : eventsOf (framed e c body o) = eventsOf body := by
  have hframe : eventsOf (framed e c body o) = eventsOf (body ++ [.settled e c o]) := rfl
  rw [hframe, eventsOf_append]
  exact List.append_nil _

@[simp] theorem eventsOf_nodeSteps {α : Type} (o : Outcome α) : eventsOf (nodeSteps o) = [] := by
  cases o <;> rfl

/-- A combination adds no events to those of its parts. -/
theorem eventsOf_combination {α : Type} (e : Expr) (c : Cursor) (body : List Step)
    (parts : Outcome α) (o : Outcome (Node Unit)) :
    eventsOf (framed e c (body ++ nodeSteps parts) o) = eventsOf body := by
  rw [eventsOf_framed, eventsOf_append, eventsOf_nodeSteps, List.append_nil]

@[simp] theorem eventsOf_ruleSteps {α : Type} (name : String) (c : Cursor) (body : List Step)
    (o : Outcome α) :
    eventsOf (ruleSteps name c body o)
      = .enter name c.offset :: eventsOf body ++ [.exit name o.position o.isMatched] := by
  have hexit : eventsOf (.told (.exit name o.position o.isMatched) :: nodeSteps o)
      = .exit name o.position o.isMatched :: eventsOf (nodeSteps o) := rfl
  rw [ruleSteps, eventsOf_append, hexit, eventsOf_nodeSteps]
  rfl

/-- A failure is given up at a place behind the one where the next alternative starts. -/
theorem nested_giveUpSteps {start : Nat} {c : Cursor} {failure : Nat} (hstart : start ≤ c.offset)
    (hfailure : c.offset ≤ failure) (rest : List Expr) :
    Nested start (eventsOf (giveUpSteps rest failure c.offset)) := by
  cases rest with
  | nil => exact .nil
  | cons e es => exact .backtrack hstart hfailure .nil

variable {g : Grammar}

/-- A match ends, or gets stuck, no further back than where it began. -/
theorem offset_le_position {α : Type} {o : Outcome α} {c : Cursor} (h : o.InReach c) :
    c.offset ≤ o.position := by
  obtain ⟨d, hd, hoff⟩ := h.reachesOffset
  exact hoff ▸ hd.offset_le

mutual

/-- **The events of a match are nested** in every rule that was entered no later. -/
theorem Runs.nested {n : Nat} {e : Expr} {c : Cursor} {steps : List Step}
    {o : Outcome (Node Unit)} {start : Nat} :
    Runs g n e c steps o → start ≤ c.offset → Nested start (eventsOf steps)
  | .accepted _ _, _ => by
    rw [eventsOf_framed]
    exact .nil
  | .rejected _, _ => by
    rw [eventsOf_framed]
    exact .nil
  | .sequence h _, hstart => by
    rw [eventsOf_combination]
    exact h.nested hstart
  | .choice h _, hstart => by
    rw [eventsOf_combination]
    exact h.nested hstart
  | .repeated h _, hstart => by
    rw [eventsOf_combination]
    exact h.nested hstart
  | .rule _ h _, hstart => by
    rw [eventsOf_framed, eventsOf_ruleSteps]
    exact .call hstart (h.nested (Nat.le_refl _))
      (offset_le_position (h.inReach (Cursor.reachesOffset_self _))) .nil

theorem RunsEach.nested {n : Nat} {es : List Expr} {c : Cursor} {steps : List Step}
    {o : Outcome (List (Node Unit))} {start : Nat} :
    RunsEach g n es c steps o → start ≤ c.offset → Nested start (eventsOf steps)
  | .nil, _ => .nil
  | .cons h hs, hstart => by
    have hstop := offset_le_position h.inReach
    rw [eventsOf_append]
    exact (h.nested hstart).append (hs.nested (hstart.trans hstop))
  | .stuck h, hstart => h.nested hstart

theorem RunsFirst.nested {n : Nat} {es : List Expr} {c : Cursor} {furthest : Nat}
    {steps : List Step} {o : Outcome (Node Unit)} {start : Nat} :
    RunsFirst g n es c furthest steps o → start ≤ c.offset → Nested start (eventsOf steps)
  | .nil, _ => .nil
  | .hit h, hstart => h.nested hstart
  | .miss h hs, hstart => by
    have hfailure := offset_le_position h.inReach
    rw [eventsOf_append, eventsOf_append]
    exact ((h.nested hstart).append (nested_giveUpSteps hstart hfailure _)).append
      (hs.nested hstart)

theorem RunsMany.nested {n : Nat} {e : Expr} {bounds : Bounds} {count : Nat} {c : Cursor}
    {steps : List Step} {o : Outcome (List (Node Unit))} {start : Nat} :
    RunsMany g n e bounds count c steps o → start ≤ c.offset → Nested start (eventsOf steps)
  | .full _, _ => .nil
  | .enough _ h _, hstart => h.nested hstart
  | .tooFew _ h _, hstart => h.nested hstart
  | .idle _ h _, hstart => h.nested hstart
  | .again _ h _ hm, hstart => by
    have hstop := offset_le_position h.inReach
    rw [eventsOf_append]
    exact (h.nested hstart).append (hm.nested (hstart.trans hstop))

end

end Engine

/-! ### Events among open rules -/

/-- A rule that has been entered and not left. -/
structure OpenRule where
  /-- The name of the rule. -/
  name : String
  /-- The position at which it was entered. -/
  position : Nat
  deriving DecidableEq, Repr

namespace Event

/-- The rules open after an event, the innermost first. -/
def update (opened : List OpenRule) : Event → List OpenRule
  | .enter rule position => ⟨rule, position⟩ :: opened
  | .exit _ _ _ => opened.tail
  | .backtrack _ _ => opened

/-- The rules open around an event. A rule is not around its own entry and exit. -/
def around (opened : List OpenRule) : Event → List OpenRule
  | .enter _ _ | .backtrack _ _ => opened
  | .exit _ _ _ => opened.tail

/-- The event can happen while these rules are open: what is left is the innermost of them, under
its name and no further back than it was entered, and an alternative is given up inside the
innermost of them for one that starts no further back. -/
def InPlace (opened : List OpenRule) : Event → Prop
  | .enter _ position => ∀ r ∈ opened.head?, r.position ≤ position
  | .exit rule position _ => ∃ r, opened.head? = some r ∧ rule = r.name ∧ r.position ≤ position
  | .backtrack failure restart =>
    ∃ r, opened.head? = some r ∧ r.position ≤ restart ∧ restart ≤ failure

end Event

/-- The rules open after some events, the innermost first. -/
def openRules (events : List Event) : List OpenRule := events.foldl Event.update []

/-- Every event is in place among the rules open before it, and in the end no rule is open. -/
structure WellNested (events : List Event) : Prop where
  /-- Every event is in place. -/
  inPlace : ∀ before e after, events = before ++ e :: after → e.InPlace (openRules before)
  /-- Every rule has been left. -/
  closed : openRules events = []

/-- Each event is in place, where these rules are open at the beginning. -/
def EachInPlace : List OpenRule → List Event → Prop
  | _, [] => True
  | opened, e :: events => e.InPlace opened ∧ EachInPlace (e.update opened) events

theorem eachInPlace_append_iff {opened : List OpenRule} {events more : List Event} :
    EachInPlace opened (events ++ more) ↔
      EachInPlace opened events ∧ EachInPlace (events.foldl Event.update opened) more := by
  induction events generalizing opened with
  | nil => simp [EachInPlace]
  | cons e events ih => simp [EachInPlace, ih, and_assoc]

theorem EachInPlace.inPlace {opened : List OpenRule} {before after : List Event} {e : Event}
    (h : EachInPlace opened (before ++ e :: after)) :
    e.InPlace (before.foldl Event.update opened) :=
  (eachInPlace_append_iff.mp h).2.1

/-- Nested events leave the same rules open. -/
theorem Nested.foldl_update {start : Nat} {events : List Event} (h : Nested start events)
    (opened : List OpenRule) : events.foldl Event.update opened = opened := by
  induction h generalizing opened with
  | nil => rfl
  | backtrack _ _ _ ih => exact ih opened
  | call _ _ _ _ ihinner ih =>
    rw [List.foldl_append, List.foldl_cons, List.foldl_cons, ihinner]
    exact ih opened

/-- **Nested events are in place** inside the rule in which they are nested. -/
theorem Nested.eachInPlace {start : Nat} {events : List Event} (h : Nested start events)
    (name : String) (opened : List OpenRule) : EachInPlace (⟨name, start⟩ :: opened) events := by
  induction h generalizing name opened with
  | nil => trivial
  | backtrack hstart hle _ ih => exact ⟨⟨_, rfl, hstart, hle⟩, ih name opened⟩
  | @call start position stop rule success inner events hstart hinner hle _ ihinner ih =>
    have hentry : (Event.enter rule position).InPlace (⟨name, start⟩ :: opened) := by
      rintro r ⟨⟩
      exact hstart
    refine eachInPlace_append_iff.mpr ⟨⟨hentry, ihinner rule _⟩, ?_⟩
    rw [List.foldl_cons, hinner.foldl_update]
    exact ⟨⟨_, rfl, rfl, hle⟩, ih name opened⟩

/-- A call by itself is well nested. -/
theorem Nested.wellNested_call {position stop : Nat} {name : String} {success : Bool}
    {inner : List Event} (h : Nested position inner) (hle : position ≤ stop) :
    WellNested (.enter name position :: inner ++ [.exit name stop success]) := by
  have hinner : (Event.enter name position :: inner).foldl Event.update []
      = [⟨name, position⟩] := h.foldl_update _
  have heach : EachInPlace [] (.enter name position :: inner ++ [.exit name stop success]) := by
    refine eachInPlace_append_iff.mpr ⟨⟨nofun, h.eachInPlace name []⟩, ?_⟩
    rw [hinner]
    exact ⟨⟨_, rfl, rfl, hle⟩, trivial⟩
  constructor
  · intro before e after hsplit
    exact (hsplit ▸ heach).inPlace
  · rw [openRules, List.foldl_append, hinner]
    rfl

/-! ### Traces -/

namespace Trace

variable {t : Trace} {events before after : List Event} {e : Event}

/-- What the trace `t'` shows of events, after what the trace `t` shows. -/
structure Shows (t t' : Trace) (events : List Event) : Prop where
  /-- There is a line for each event, behind the lines of before. -/
  size_lines : t'.lines.size = t.lines.size + events.length
  /-- The lines of before are still there. -/
  kept : ∀ i < t.lines.size, t'.lines[i]? = t.lines[i]?
  /-- The line of an event is indented by two blanks for each rule open around the event. -/
  line : ∀ before e after, events = before ++ e :: after →
    t'.lines[t.lines.size + before.length]?
      = some (indented (t.depth + (e.around (openRules before)).length) (eventLine 0 e))
  /-- The lines of entering and of leaving a rule are indented alike. -/
  paired : ∀ before rule position inner stop success after,
    events = before ++ .enter rule position :: inner ++ .exit rule stop success :: after →
    Nested position inner →
    ∃ depth,
      t'.lines[t.lines.size + before.length]?
        = some (indented depth (eventLine 0 (.enter rule position))) ∧
      t'.lines[t.lines.size + (before.length + inner.length + 1)]?
        = some (indented depth (eventLine 0 (.exit rule stop success)))
  /-- A rule is left only while the trace knows of an open one. -/
  depth_pos : ∀ before rule position success after,
    events = before ++ .exit rule position success :: after → 0 < (before.foldl record t).depth
  /-- As many rules are open as before. -/
  depth_eq : t'.depth = t.depth

theorem lines_record (t : Trace) (e : Event) :
    ∃ line, (t.record e).lines = t.lines.push line := by
  cases e <;> exact ⟨_, rfl⟩

theorem size_lines_foldl (t : Trace) (events : List Event) :
    (events.foldl record t).lines.size = t.lines.size + events.length := by
  induction events generalizing t with
  | nil => rfl
  | cons e events ih =>
    obtain ⟨line, hline⟩ := lines_record t e
    rw [List.foldl_cons, ih, hline, Array.size_push, List.length_cons]
    omega

/-- A trace only grows. -/
theorem lines_foldl_of_lt (t : Trace) (events : List Event) {i : Nat} (hi : i < t.lines.size) :
    (events.foldl record t).lines[i]? = t.lines[i]? := by
  induction events generalizing t with
  | nil => rfl
  | cons e events ih =>
    obtain ⟨line, hline⟩ := lines_record t e
    have hgrown : i < (t.record e).lines.size := by
      rw [hline, Array.size_push]
      omega
    rw [List.foldl_cons, ih _ hgrown, hline, Array.getElem?_push, if_neg (Nat.ne_of_lt hi)]

theorem eventLine_eq (depth : Nat) (e : Event) :
    eventLine depth e = indented depth (eventLine 0 e) := by
  cases e <;> simp [eventLine, indented]

/-- An event in place moves the depth by what it does to the rules open, and is written at the
depth of the rules around it. -/
theorem record_of_inPlace {opened : List OpenRule} {base : Nat} (he : e.InPlace opened)
    (hdepth : t.depth = base + opened.length) :
    (t.record e).depth = base + (e.update opened).length ∧
      (t.record e).lines
        = t.lines.push (indented (base + (e.around opened).length) (eventLine 0 e)) := by
  cases e with
  | enter rule position =>
    rw [← eventLine_eq, Event.around, ← hdepth]
    exact ⟨by rw [record, Event.update, List.length_cons, hdepth]; rfl, rfl⟩
  | exit rule position success =>
    obtain ⟨r, hr, -⟩ := he
    obtain ⟨rest, rfl⟩ := List.head?_eq_some_iff.mp hr
    have hrest : t.depth - 1 = base + rest.length := by
      rw [hdepth, List.length_cons]
      omega
    rw [← eventLine_eq, Event.around, List.tail_cons, ← hrest]
    exact ⟨hrest, rfl⟩
  | backtrack failure restart =>
    rw [← eventLine_eq, Event.around, ← hdepth]
    exact ⟨hdepth, rfl⟩

end Trace

namespace WellNested

variable {events before after : List Event}

/-- At any time, the depth of a trace is the number of rules open. -/
theorem depth_foldl (h : WellNested events) (t : Trace) (hsplit : events = before ++ after) :
    (before.foldl Trace.record t).depth = t.depth + (openRules before).length := by
  induction before using List.reverseRecOn generalizing after with
  | nil => rfl
  | append_singleton before e ih =>
    rw [List.append_assoc, List.singleton_append] at hsplit
    rw [openRules, List.foldl_append, List.foldl_append]
    exact (Trace.record_of_inPlace (h.inPlace _ _ _ hsplit) (ih hsplit)).1

/-- The line of an event, at the depth of the rules around it. -/
theorem line_foldl (h : WellNested events) (t : Trace) {e : Event}
    (hsplit : events = before ++ e :: after) :
    (events.foldl Trace.record t).lines[t.lines.size + before.length]?
      = some (Trace.indented (t.depth + (e.around (openRules before)).length)
          (Trace.eventLine 0 e)) := by
  have hdepth := h.depth_foldl t hsplit
  obtain ⟨-, hlines⟩ := Trace.record_of_inPlace (h.inPlace _ _ _ hsplit) hdepth
  rw [hsplit, List.foldl_append, List.foldl_cons, ← t.size_lines_foldl before,
    Trace.lines_foldl_of_lt, hlines, Array.getElem?_push_size]
  rw [hlines, Array.size_push]
  exact Nat.lt_succ_self _

/-- **A trace of well-nested events** shows each of them at the depth of the rules around it. -/
theorem shows (h : WellNested events) (t : Trace) :
    t.Shows (events.foldl Trace.record t) events where
  size_lines := t.size_lines_foldl events
  kept _ hi := t.lines_foldl_of_lt events hi
  line before e after hsplit := h.line_foldl t hsplit
  paired before rule position inner stop success after hsplit hinner := by
    have hentry : events
        = before ++ .enter rule position :: (inner ++ .exit rule stop success :: after) := by
      rw [hsplit, List.append_assoc, List.cons_append]
    have hopen : openRules (before ++ .enter rule position :: inner)
        = ⟨rule, position⟩ :: openRules before := by
      rw [openRules, List.foldl_append, List.foldl_cons, hinner.foldl_update]
      rfl
    have hexit := h.line_foldl t hsplit
    rw [hopen, List.length_append, List.length_cons, ← Nat.add_assoc before.length] at hexit
    exact ⟨_, h.line_foldl t hentry, hexit⟩
  depth_pos before rule position success after hsplit := by
    obtain ⟨r, hr, -⟩ := h.inPlace _ _ _ hsplit
    obtain ⟨rest, hrest⟩ := List.head?_eq_some_iff.mp hr
    rw [h.depth_foldl t hsplit, hrest, List.length_cons]
    omega
  depth_eq := by
    rw [h.depth_foldl t (List.append_nil events).symm, h.closed]
    rfl

end WellNested

/-! ### Parses -/

/-- **The events of a parse are well nested.** Let a parse return, as configured in any way and
watched by any observer. There is an outcome of the start rule, and a sequence of events that every
observer of a parse of the text is told.

* It begins with the start rule entered at the beginning of the text, and ends with the start rule
  left at the position of the outcome, marked as the outcome is. What happens in between happens
  inside that call.
* Every event is in place among the rules open at the time.
* A trace, whatever it shows already, shows every event at the depth of the rules around it, never
  leaves a rule that it does not know to be open, and is at the same depth after the parse as
  before. -/
theorem parse_events_nested {σ : Type} {g : Grammar} {text : String} {config : ParseConfig}
    {handle : σ → Event → σ} {observer last : σ} {result : Except ParseError ParseOutput}
    (h : g.parseWith text config handle observer = .ok (result, last)) :
    ∃ (r : Rule) (o : Outcome (Node Unit)) (inner events : List Event),
      g.rule? g.start = some r ∧ g.attempt g.start text 0 = .ok o ∧
      events = .enter r.name 0 :: inner ++ [.exit r.name o.position o.isMatched] ∧
      last = events.foldl handle observer ∧
      (∀ (τ : Type) (config' : ParseConfig) (handle' : τ → Event → τ) (observer' : τ),
        ∃ result', g.parseWith text config' handle' observer'
          = .ok (result', events.foldl handle' observer')) ∧
      Nested 0 inner ∧ WellNested events ∧
      ∀ t : Trace, t.Shows (events.foldl Trace.record t) events := by
  have hlen := Grammar.byteLength_le_of_parseWith h
  obtain ⟨n, steps, o, hrun⟩ := Grammar.exists_runs_of_parseWith_eq_ok h
  have hattempt : g.attempt g.start text 0 = .ok o :=
    Grammar.attempt_eq_ok hlen (Cursor.at?_eq_some_iff.mpr ⟨.refl _, rfl⟩) hrun _
  have htold : ∀ (τ : Type) (config' : ParseConfig) (handle' : τ → Event → τ) (observer' : τ),
      ∃ result', g.parseWith text config' handle' observer'
        = .ok (result', (eventsOf steps).foldl handle' observer') := by
    intro τ config' handle' observer'
    obtain ⟨_, _, hparse⟩ := Grammar.exists_parseWith_eq hlen hrun config'.requireFullInput
    obtain ⟨output, houtput, _⟩ := hparse τ config'.collectStats handle' observer'
    exact ⟨output, houtput⟩
  have hlast : last = (eventsOf steps).foldl handle observer := by
    obtain ⟨result', hresult⟩ := htold σ config handle observer
    exact congrArg Prod.snd (Except.ok.inj (h.symm.trans hresult))
  cases hrun with
  | @rule n _ r _ body part _ hr hbody ho =>
    have hinner : Nested 0 (eventsOf body) := hbody.nested (Nat.le_refl _)
    have hevents : eventsOf (framed (.rule g.start) (.start text.toList)
          (ruleSteps r.name (.start text.toList) body part) o)
        = .enter r.name 0 :: eventsOf body ++ [.exit r.name o.position o.isMatched] := by
      subst ho
      rw [eventsOf_framed, eventsOf_ruleSteps]
      cases part <;> rfl
    rw [hevents] at htold hlast
    have hnested : WellNested
        (.enter r.name 0 :: eventsOf body ++ [.exit r.name o.position o.isMatched]) :=
      hinner.wellNested_call (Nat.zero_le _)
    exact ⟨r, o, eventsOf body, _, hr, hattempt, rfl, hlast, htold, hinner, hnested,
      hnested.shows⟩

/-- A word with a mark behind it, or the word alone. -/
def greeting : Grammar where
  rules := #[
    ⟨"greeting", [.sequence [.rule ⟨1⟩, .literal "!"], .rule ⟨1⟩], nofun⟩,
    ⟨"word", [.literal "hé", .literal "h"], nofun⟩]
  start := ⟨0⟩
  valid := rfl

/-- The trace of a word without a mark. The first alternative is given up after the word in it has
been left, and the word is entered again. -/
def greetingTrace : Trace where
  lines := #[
    "> greeting @0",
    "  > word @0",
    "    ~ backtrack 0 -> 0",
    "  < word ok @1",
    "  ~ backtrack 1 -> 0",
    "  > word @0",
    "    ~ backtrack 0 -> 0",
    "  < word ok @1",
    "< greeting ok @1"]
  depth := 0

theorem greetingTrace_nested :
    greeting.parseWith "h?" {} Trace.record Trace.empty
      = .ok (.error ⟨.trailingInput, .of 1 2, ⟨1, 2⟩⟩, greetingTrace) ∧
    ∃ inner events, events = .enter "greeting" 0 :: inner ++ [.exit "greeting" 1 true] ∧
      Nested 0 inner ∧ WellNested events ∧ Trace.empty.Shows greetingTrace events := by
  have hparse : greeting.parseWith "h?" {} Trace.record Trace.empty
      = .ok (.error ⟨.trailingInput, .of 1 2, ⟨1, 2⟩⟩, greetingTrace) := by decide +kernel
  obtain ⟨r, o, inner, events, hr, ho, rfl, hlast, -, hinner, hnested, hshows⟩ :=
    parse_events_nested hparse
  have houtcome : (greeting.attempt greeting.start "h?" 0).map
      (fun o => (o.position, o.isMatched)) = .ok (1, true) := by decide +kernel
  rw [ho] at houtcome
  obtain ⟨hposition, hmatched⟩ := Prod.mk.inj (Except.ok.inj houtcome)
  cases hr
  rw [hposition, hmatched] at hlast hnested hshows
  exact ⟨hparse, inner, _, rfl, hinner, hnested, hlast ▸ hshows Trace.empty⟩

end PegGrammar
