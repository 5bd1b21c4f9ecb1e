import Mathlib.Data.List.Forall2
import PegGrammar.Expr.Combinators
import PegGrammar.Proofs.Safety

/-!
# Observers do not interfere

There are four ways to ask about a text: match the start rule at its beginning, parse it, parse it
as configured and watched by an observer, or parse it among others. All of them give the same
answer, in the form that each of them gives answers in.

The course of a match does not mention the monitor, so most of this is already known. What is left
is to read the two things that a monitor collects off the course. The observer sees the events
among the steps, `eventsOf`, one after the other, and the statistics go nowhere but into the
output.

## Main definitions

* `Engine.eventsOf` — the events in the course of a match
* `ParseError.Reports` — what a parse error says, in offsets of the text
* `Outcome.Concludes` — what an outcome of the start rule means for the text
* `Grammar.Answers` — what a parse returns, however it is configured and watched

## Main results

* `Monitor.observer_replay` — an observer sees the events of the course and nothing else
* `Grammar.parseBatch_eq_ok_iff` — a batch is parsed text by text
* `entry_points_agree` — the four ways agree
-/

namespace PegGrammar

open Engine

/-! ### Events -/

namespace Engine

/-- The event that a step reports, if it reports one. -/
def Step.event? : Step → Option Event
  | .told event => some event
  | .tried _ _ | .settled _ _ _ | .made => none

/-- The events in a record of steps, in order. -/
def eventsOf (steps : List Step) : List Event := steps.filterMap Step.event?

end Engine

namespace Monitor

variable {σ : Type}

theorem observer_note (w : Watch σ) (m : Monitor σ) (s : Step) :
    (m.note w s).observer = s.event?.toList.foldl w.handle m.observer := by
  cases s with
  | told event => cases event <;> rfl
  | tried e c => rfl
  | settled e c o => rfl
  | made => rfl

/-- **What an observer sees.** It is told of the events of the course, one after the other. -/
theorem observer_replay (w : Watch σ) (m : Monitor σ) (steps : List Step) :
    (m.replay w steps).observer = (eventsOf steps).foldl w.handle m.observer := by
  induction steps generalizing m with
  | nil => rfl
  | cons s steps ih =>
    have hsplit : eventsOf (s :: steps) = s.event?.toList ++ eventsOf steps := by
      cases hs : s.event? <;> simp [eventsOf, hs]
    rw [replay_cons, ih, observer_note, hsplit, List.foldl_append]

end Monitor

/-! ### Conclusions -/

/-- The error is of this kind, its span goes from one offset to the other, and its position is the
line and column of the first. -/
structure ParseError.Reports (err : ParseError) (text : List Char) (kind : ParseError.Kind)
    (start stop : Nat) : Prop where
  /-- The kind of the error. -/
  kind_eq : err.kind = kind
  /-- The offset at which its span starts. -/
  start_eq : err.span.start.toNat = start
  /-- The offset at which its span stops. -/
  stop_eq : err.span.stop.toNat = stop
  /-- Its line and column. -/
  position_eq : (LineIndex.of text).lineCol start = .ok err.position

/-- What an outcome of the start rule means for the text: a failure is an error at the place where
the match got stuck, a match that leaves some of the text over is an error at the rest if the
whole text is asked for, and every other match is a syntax tree. -/
def Outcome.Concludes (text : List Char) (full : Bool) :
    Outcome (Node Unit) → ParseResult → Prop
  | .failed offset, result =>
    ∃ err, result = .error err ∧ err.Reports text .noMatch offset offset
  | .matched node stop, result =>
    if full = true ∧ stop.offset < Text.byteLength text then
      ∃ err, result = .error err ∧
        err.Reports text .trailingInput stop.offset (Text.byteLength text)
    else ∃ tree, SyntaxTree.ofMatch node text = .ok tree ∧ result = .ok tree

/-- The span between two positions of a text that is short enough records them exactly. -/
theorem ParseError.reports_mk {text : List Char} (hlen : Text.byteLength text ≤ maxInputLength)
    {start stop : Nat} (hstart : start ≤ Text.byteLength text)
    (hstop : stop ≤ Text.byteLength text) {p : LineCol}
    (hp : (LineIndex.of text).lineCol start = .ok p) (kind : ParseError.Kind) :
    ParseError.Reports ⟨kind, .of start stop, p⟩ text kind start stop := by
  have hsize : maxInputLength < UInt32.size := by decide
  exact ⟨rfl, toNat_saturate (by omega), toNat_saturate (by omega), hp⟩

namespace Grammar

variable {g : Grammar} {n : Nat} {steps : List Step} {o : Outcome (Node Unit)}

/-- **The conclusion of a parse** depends on the outcome and on whether the whole text is asked
for. The statistics only come along. -/
theorem exists_concludes {text : List Char} (hlen : Text.byteLength text ≤ maxInputLength)
    {e : Expr} (h : Runs g n e (.start text) steps o) (full : Bool) :
    ∃ result, o.Concludes text full result ∧
      ∀ (collectStats : Bool) (stats : Stats), ∃ output : Except ParseError ParseOutput,
        conclude text ⟨full, collectStats⟩ stats o = .ok output ∧
          output.map ParseOutput.tree = result := by
  obtain ⟨_, hbound, _⟩ := h.positionFrom (Cursor.Reaches.refl (.start text))
  obtain ⟨p, hp⟩ := LineIndex.exists_lineCol_eq_ok h.inReach.reachesOffset
  cases o with
  | failed offset =>
    exact ⟨_, ⟨_, rfl, ParseError.reports_mk hlen hbound hbound hp _⟩,
      fun collectStats stats => ⟨_, conclude_failed hp _ stats, rfl⟩⟩
  | matched node stop =>
    by_cases hfull : full = true ∧ stop.offset < Text.byteLength text
    · simp only [Outcome.Concludes, if_pos hfull]
      exact ⟨_, ⟨_, rfl, ParseError.reports_mk hlen hbound (Nat.le_refl _) hp _⟩,
        fun collectStats stats => ⟨_, conclude_remainder hp hfull stats node, rfl⟩⟩
    · obtain ⟨root, hroot, _⟩ := h.covers.exists_withLexemes hlen (.refl _)
      have htree : SyntaxTree.ofMatch node text = .ok ⟨root⟩ := by
        rw [SyntaxTree.ofMatch, hroot]
        rfl
      simp only [Outcome.Concludes, if_neg hfull]
      exact ⟨_, ⟨_, htree, rfl⟩,
        fun collectStats stats => ⟨_, conclude_matched hroot hfull stats, rfl⟩⟩

/-! ### Batches -/

/-- A batch is parsed text by text. -/
theorem parseBatch_eq_ok_iff {texts : List String} {results : List ParseResult} :
    g.parseBatch texts = .ok results ↔
      List.Forall₂ (fun text result => g.parse text = .ok result) texts results := by
  induction texts generalizing results with
  | nil =>
    rw [List.forall₂_nil_left_iff]
    constructor
    · rintro ⟨⟩
      rfl
    · rintro rfl
      rfl
  | cons text texts ih =>
    rw [List.forall₂_cons_left_iff, parseBatch, List.mapM_cons]
    constructor
    · intro h
      cases hfirst : g.parse text with
      | error fault => rw [hfirst] at h; cases h
      | ok first =>
        cases hothers : texts.mapM g.parse with
        | error fault => rw [hfirst, hothers] at h; cases h
        | ok others =>
          rw [hfirst, hothers] at h
          cases h
          exact ⟨first, others, rfl, ih.mp hothers, rfl⟩
    · rintro ⟨first, others, hfirst, hothers, rfl⟩
      rw [hfirst, show texts.mapM g.parse = .ok others from ih.mpr hothers]
      rfl

/-! ### Watching a parse -/

/-- The events of a parse and its result are the same for all observers, with or without
statistics. -/
theorem exists_parseWith_eq {text : String}
    (hlen : Text.byteLength text.toList ≤ maxInputLength)
    (h : Runs g n (.rule g.start) (.start text.toList) steps o) (full : Bool) :
    ∃ result, o.Concludes text.toList full result ∧
      ∀ (σ : Type) (collectStats : Bool) (handle : σ → Event → σ) (observer : σ),
        ∃ output, g.parseWith text ⟨full, collectStats⟩ handle observer
            = .ok (output, (eventsOf steps).foldl handle observer) ∧
          output.map ParseOutput.tree = result := by
  obtain ⟨result, hconcludes, hconclude⟩ := exists_concludes hlen h full
  refine ⟨result, hconcludes, fun σ collectStats handle observer => ?_⟩
  obtain ⟨output, houtput, htree⟩ := hconclude collectStats
    (finalMonitor ⟨full, collectStats⟩ handle observer steps).stats
  refine ⟨output, ?_, htree⟩
  rw [parseWith_eq hlen h, houtput, finalMonitor, Monitor.observer_replay]
  rfl

/-! ### What a parse answers -/

/-- A parse of the text, configured and watched in some way, returns the result. -/
def Answers (g : Grammar) (text : String) (result : ParseResult) : Prop :=
  ∃ (σ : Type) (config : ParseConfig) (handle : σ → Event → σ) (observer last : σ)
    (output : Except ParseError ParseOutput),
    g.parseWith text config handle observer = .ok (output, last) ∧
      output.map ParseOutput.tree = result

/-- The result of a plain parse is one of them. -/
theorem answers_of_parse {text : String} {result : ParseResult} (h : g.parse text = .ok result) :
    g.Answers text result := by
  rw [parse_eq] at h
  cases hparse : g.parseWith text { collectStats := false } (fun _ _ => ()) () with
  | error fault => rw [hparse] at h; cases h
  | ok answer =>
    rw [hparse] at h
    exact ⟨Unit, _, _, _, _, answer.1, hparse, Except.ok.inj h⟩

/-- **What is behind an answer.** The text is short enough, its match has an outcome, and the answer
is what the outcome means for the text. -/
theorem Answers.exists_concludes {text : String} {result : ParseResult}
    (h : g.Answers text result) :
    Text.byteLength text.toList ≤ maxInputLength ∧
      ∃ n steps o full, Runs g n (.rule g.start) (.start text.toList) steps o ∧
        o.Concludes text.toList full result := by
  obtain ⟨σ, ⟨full, collectStats⟩, handle, observer, last, output, hparse, rfl⟩ := h
  have hlen := byteLength_le_of_parseWith hparse
  obtain ⟨n, steps, o, hrun⟩ := exists_runs_of_parseWith_eq_ok hparse
  obtain ⟨result, hconcludes, heq⟩ := exists_parseWith_eq hlen hrun full
  obtain ⟨output', houtput', rfl⟩ := heq σ collectStats handle observer
  obtain rfl : output' = output := by
    rw [hparse] at houtput'
    exact (Prod.mk.inj (Except.ok.inj houtput')).1.symm
  exact ⟨hlen, n, steps, o, full, hrun, hconcludes⟩

/-- **Where an error is.** Both ends of its span are positions of the text, and the span is empty
exactly if the start rule did not match. -/
theorem Answers.exists_reports {text : String} {err : ParseError}
    (h : g.Answers text (.error err)) :
    ∃ i j, err.Reports text.toList err.kind i j ∧ Text.isBoundary text.toList i = true ∧
      Text.isBoundary text.toList j = true ∧
      (err.kind = .noMatch ∧ i = j ∨ err.kind = .trailingInput ∧ i < j) := by
  obtain ⟨hlen, n, steps, o, full, hrun, hconcludes⟩ := h.exists_concludes
  have hpos := (hrun.positionFrom (Cursor.Reaches.refl (.start text.toList))).2.2
  cases o with
  | failed offset =>
    obtain ⟨err', herr, hreports⟩ := hconcludes
    cases herr
    have hkind := hreports.kind_eq
    exact ⟨offset, offset, hkind ▸ hreports, hpos, hpos, Or.inl ⟨hkind, rfl⟩⟩
  | matched node stop =>
    simp only [Outcome.Concludes] at hconcludes
    split at hconcludes
    next hfull =>
      obtain ⟨err', herr, hreports⟩ := hconcludes
      cases herr
      have hkind := hreports.kind_eq
      have hend : Text.isBoundary text.toList (Text.byteLength text.toList) = true :=
        Text.isBoundary_iff.mpr ⟨text.toList, [], (List.append_nil _).symm, rfl⟩
      exact ⟨_, _, hkind ▸ hreports, hpos, hend, Or.inr ⟨hkind, hfull.2⟩⟩
    next =>
      obtain ⟨tree, -, herr⟩ := hconcludes
      cases herr

end Grammar

/-- **The entry points agree, and observers do not interfere.** Let matching the start rule at the
beginning of a text return an outcome, in one of the two modes.

* It returns the same outcome in the other mode.
* A parse as configured returns what the outcome means for the text. Neither the statistics nor
  the observer has an influence on it, and all observers see the same events, whatever the
  configuration.
* A plain parse returns what a parse of the whole text returns.

A batch returns the results of its texts, each at the place of its text. -/
theorem entry_points_agree (g : Grammar) :
    (∀ (text : String) (mode : MatchMode) (o : Outcome (Node Unit)),
      g.attempt g.start text 0 mode = .ok o →
      (∀ other, g.attempt g.start text 0 other = .ok o) ∧
      ∃ events : List Event, ∀ full : Bool, ∃ result : ParseResult,
        o.Concludes text.toList full result ∧
        (∀ (σ : Type) (collectStats : Bool) (handle : σ → Event → σ) (observer : σ),
          ∃ output, g.parseWith text ⟨full, collectStats⟩ handle observer
              = .ok (output, events.foldl handle observer) ∧
            output.map ParseOutput.tree = result) ∧
        (full = true → g.parse text = .ok result)) ∧
    ∀ (texts : List String) (results : List ParseResult),
      g.parseBatch texts = .ok results ↔
        results.length = texts.length ∧
          ∀ (i : Nat) (text : String) (result : ParseResult),
            texts[i]? = some text → results[i]? = some result → g.parse text = .ok result := by
  refine ⟨fun text mode o ho => ?_, fun texts results => ?_⟩
  · obtain ⟨hlen, c, n, steps, hc, hrun⟩ := Grammar.exists_runs_of_attempt ho
    refine ⟨Grammar.attempt_eq_ok hlen hc hrun, eventsOf steps, fun full => ?_⟩
    obtain rfl : c = .start text.toList :=
      Option.some.inj (hc.symm.trans (Cursor.at?_eq_some_iff.mpr ⟨.refl _, rfl⟩))
    obtain ⟨result, hconcludes, hparse⟩ := Grammar.exists_parseWith_eq hlen hrun full
    refine ⟨result, hconcludes, hparse, ?_⟩
    rintro rfl
    obtain ⟨output, houtput, htree⟩ := hparse Unit false (fun _ _ => ()) ()
    rw [Grammar.parse_eq, houtput, ← htree]
    rfl
  · rw [Grammar.parseBatch_eq_ok_iff, List.forall₂_iff_get]
    constructor
    · rintro ⟨hlength, hget⟩
      refine ⟨hlength.symm, fun i text result htext hresult => ?_⟩
      obtain ⟨hi, rfl⟩ := List.getElem?_eq_some_iff.mp htext
      obtain ⟨hi', rfl⟩ := List.getElem?_eq_some_iff.mp hresult
      exact hget i hi hi'
    · rintro ⟨hlength, hget⟩
      refine ⟨hlength.symm, fun i hi hi' => ?_⟩
      exact hget i _ _ (List.getElem?_eq_getElem hi) (List.getElem?_eq_getElem hi')

/-- A line of text up to its end mark, the first alternative of which is given up. -/
def line : Grammar where
  rules := #[
    ⟨"line", [.sequence [.literal "é", .literal "!"], .rule ⟨1⟩], nofun⟩,
    ⟨"word", [.repeated (.charSet "éa") .oneToMany], nofun⟩]
  start := ⟨0⟩
  valid := rfl

/-- A match of only a part of the text, as every observer sees it and every parse of the whole
text reports it. -/
theorem line_observed :
    line.attempt ⟨0⟩ "éa\n?" 0 .lexical = .ok (.matched
      (.branch (.rule "line") (.of 0 3) [.branch (.rule "word") (.of 0 3) [
        .branch (.repeated .oneToMany) (.of 0 3) [
          .leaf .charSet (.of 0 2) (), .leaf .charSet (.of 2 3) ()]]]) ⟨3, ['\n', '?']⟩) ∧
    line.parse "éa\n?" = .ok (.error ⟨.trailingInput, .of 3 5, ⟨1, 3⟩⟩) ∧
    ∃ events : List Event, ∀ (σ : Type) (collectStats : Bool) (handle : σ → Event → σ)
      (observer : σ), line.parseWith "éa\n?" ⟨true, collectStats⟩ handle observer
        = .ok (.error ⟨.trailingInput, .of 3 5, ⟨1, 3⟩⟩, events.foldl handle observer) := by
  have hattempt : line.attempt ⟨0⟩ "éa\n?" 0 .lexical = .ok (.matched
      (.branch (.rule "line") (.of 0 3) [.branch (.rule "word") (.of 0 3) [
        .branch (.repeated .oneToMany) (.of 0 3) [
          .leaf .charSet (.of 0 2) (), .leaf .charSet (.of 2 3) ()]]]) ⟨3, ['\n', '?']⟩) := by
    decide +kernel
  have hparse : line.parse "éa\n?" = .ok (.error ⟨.trailingInput, .of 3 5, ⟨1, 3⟩⟩) := by
    decide +kernel
  obtain ⟨_, events, hagree⟩ := (entry_points_agree line).1 _ _ _ hattempt
  obtain ⟨result, _, hwatched, hplain⟩ := hagree true
  obtain rfl := Except.ok.inj (hparse.symm.trans (hplain rfl))
  refine ⟨hattempt, hparse, events, fun σ collectStats handle observer => ?_⟩
  obtain ⟨output, houtput, herror⟩ := hwatched σ collectStats handle observer
  cases output with
  | error err => cases herror; exact houtput
  | ok output => cases herror

end PegGrammar
