import Mathlib.Order.Monotone.Basic
import Mathlib.Order.Lattice
import PegGrammar.Proofs.Observation
import PegGrammar.Proofs.Tiling

/-!
# Matching looks only ahead

What a match does depends on the text from its position on, and on nothing before it. Text put in
front moves the match: the same rules are entered and the same alternatives given up, the tree has
the same shape, and all that changes is the offsets, each of which grows by the length of what was
put in front.

## Moving offsets

`relocate f` renumbers the offsets in an outcome, an event or a step by a function `f`. For a run
to be carried along, `f` has to keep distances from the position of the run on, which is what
`Carries` says. Adding a constant does so everywhere; taking it away again does so only for runs
that begin no earlier than the constant. The second is what turns a statement about the runs of
the longer text into one about the shorter, so that a match that never returns does not return in
either.

## Spans

Offsets in events and failures have no bound, but the ends of a span are stored in 32 bits and
saturate. So a span can only be renumbered if it records its ends exactly, and `Carries` asks for a
rest of the text that is short enough for that.

## Main definitions

* `Span.relocate`, …, `Engine.Step.relocate` — renumbered offsets
* `Carries` — renumberings that carry runs along

## Main results

* `Engine.Runs.relocate` — a run carried along
* `Engine.diverges_shift_iff` — so is the lack of one
* `matching_looks_only_ahead` — a text with and without something in front
-/

namespace PegGrammar

open Engine

/-! ### Renumbering offsets -/

/-- The span between the renumbered ends. -/
def Span.relocate (f : Nat → Nat) (s : Span) : Span := .of (f s.start.toNat) (f s.stop.toNat)

/-- The cursor before the same text at the renumbered offset. -/
def Cursor.relocate (f : Nat → Nat) (c : Cursor) : Cursor := ⟨f c.offset, c.rest⟩

mutual

/-- The tree with all spans renumbered. -/
def Node.relocate (f : Nat → Nat) : Node Unit → Node Unit
  | .leaf label span lexeme => .leaf label (span.relocate f) lexeme
  | .branch label span children => .branch label (span.relocate f) (Node.relocateAll f children)

/-- The trees with all spans renumbered. -/
def Node.relocateAll (f : Nat → Nat) : List (Node Unit) → List (Node Unit)
  | [] => []
  | n :: ns => n.relocate f :: Node.relocateAll f ns

end

/-- The event at renumbered positions. -/
def Event.relocate (f : Nat → Nat) : Event → Event
  | .enter rule position => .enter rule (f position)
  | .exit rule position success => .exit rule (f position) success
  | .backtrack failure restart => .backtrack (f failure) (f restart)

/-- The outcome with offsets renumbered, where `value` renumbers what the match yields. -/
def Outcome.renumber {α : Type} (f : Nat → Nat) (value : α → α) : Outcome α → Outcome α
  | .matched a stop => .matched (value a) (stop.relocate f)
  | .failed offset => .failed (f offset)

/-- The outcome of a match with all offsets renumbered. -/
def Outcome.relocate (f : Nat → Nat) : Outcome (Node Unit) → Outcome (Node Unit) :=
  renumber f (Node.relocate f)

/-- The outcome of several matches with all offsets renumbered. -/
def Outcome.relocateAll (f : Nat → Nat) :
    Outcome (List (Node Unit)) → Outcome (List (Node Unit)) :=
  renumber f (Node.relocateAll f)

/-- The step with all offsets renumbered. -/
def Engine.Step.relocate (f : Nat → Nat) : Step → Step
  | .tried e c => .tried e (c.relocate f)
  | .settled e c o => .settled e (c.relocate f) (o.relocate f)
  | .told event => .told (event.relocate f)
  | .made => .made

@[simp] theorem Cursor.relocate_offset (f : Nat → Nat) (c : Cursor) :
    (c.relocate f).offset = f c.offset := rfl

@[simp] theorem Cursor.relocate_rest (f : Nat → Nat) (c : Cursor) :
    (c.relocate f).rest = c.rest := rfl

@[simp] theorem Node.span_relocate (f : Nat → Nat) (n : Node Unit) :
    (n.relocate f).span = n.span.relocate f := by
  cases n <;> rfl

namespace Outcome

variable {α : Type} (f : Nat → Nat)

@[simp] theorem position_renumber (value : α → α) (o : Outcome α) :
    (o.renumber f value).position = f o.position := by
  cases o <;> rfl

@[simp] theorem isMatched_renumber (value : α → α) (o : Outcome α) :
    (o.renumber f value).isMatched = o.isMatched := by
  cases o <;> rfl

/-- Renumbering goes through the ways in which outcomes are put together, here and in the next
lemma. So it goes through the whole of a run. -/
theorem relocateAll_map_singleton (o : Outcome (Node Unit)) :
    (o.map fun node => [node]).relocateAll f = (o.relocate f).map fun node => [node] := by
  cases o <;> rfl

theorem relocateAll_map_cons (node : Node Unit) (o : Outcome (List (Node Unit))) :
    (o.map (node :: ·)).relocateAll f = (o.relocateAll f).map (node.relocate f :: ·) := by
  cases o <;> rfl

end Outcome

/-! ### Renumbering a record of steps -/

namespace Engine

variable (f : Nat → Nat)

/-- The four kinds of steps that the engine adds to those of the parts are renumbered as they stand,
with the cursor that they name. -/
theorem relocate_framed (e : Expr) (c : Cursor) (body : List Step) (o : Outcome (Node Unit)) :
    (framed e c body o).map (Step.relocate f)
      = framed e (c.relocate f) (body.map (Step.relocate f)) (o.relocate f) := by
  simp [framed, Step.relocate]

theorem relocate_nodeSteps {α : Type} (value : α → α) (o : Outcome α) :
    (nodeSteps o).map (Step.relocate f) = nodeSteps (o.renumber f value) := by
  cases o <;> rfl

theorem relocate_giveUpSteps (rest : List Expr) (failure restart : Nat) :
    (giveUpSteps rest failure restart).map (Step.relocate f)
      = giveUpSteps rest (f failure) (f restart) := by
  cases rest <;> rfl

theorem relocate_ruleSteps (name : String) (c : Cursor) (body : List Step)
    (o : Outcome (Node Unit)) :
    (ruleSteps name c body o).map (Step.relocate f)
      = ruleSteps name (c.relocate f) (body.map (Step.relocate f)) (o.relocate f) := by
  simp [ruleSteps, Step.relocate, Event.relocate, Outcome.relocate,
    relocate_nodeSteps f (Node.relocate f)]

/-- The events of a renumbered record are the renumbered events. -/
theorem eventsOf_relocate (steps : List Step) :
    eventsOf (steps.map (Step.relocate f)) = (eventsOf steps).map (Event.relocate f) := by
  rw [eventsOf, List.filterMap_map, eventsOf, List.map_filterMap]
  refine List.filterMap_congr fun s _ => ?_
  cases s <;> rfl

end Engine

/-- The statistics do not depend on offsets, nor on what the observer makes of the events. -/
theorem Monitor.stats_replay_relocate {σ : Type} (f : Nat → Nat) (w : Watch σ) (steps : List Step)
    (m m' : Monitor σ) (hstats : m'.stats = m.stats) (hdepth : m'.depth = m.depth) :
    (m'.replay w (steps.map (Step.relocate f))).stats = (m.replay w steps).stats := by
  induction steps generalizing m m' with
  | nil => exact hstats
  | cons s steps ih =>
    refine ih _ _ ?_ ?_
    all_goals
      cases s with
      | told event => cases event <;> simp [note, Step.relocate, Event.relocate, hstats, hdepth]
      | tried e c => simp [note, Step.relocate, hstats, hdepth]
      | settled e c o => simp [note, Step.relocate, hstats, hdepth]
      | made => simp [note, Step.relocate, hstats, hdepth]

/-! ### Renumberings that carry runs along -/

/-- A renumbering that carries along the runs that begin at the cursor: it keeps the order of
offsets and, from the cursor on, their distances, and the spans of such runs record their ends
exactly. -/
structure Carries (f : Nat → Nat) (c : Cursor) : Prop where
  /-- The order of offsets is kept. -/
  monotone : Monotone f
  /-- Distances from the cursor on are kept. -/
  add : ∀ i d, c.offset ≤ i → f (i + d) = f i + d
  /-- Spans record what they are made of. -/
  fits : c.offset + Text.byteLength c.rest ≤ maxInputLength

namespace Carries

variable {f : Nat → Nat} {c d : Cursor}

/-- A renumbering that carries along the runs from a cursor carries along those from any cursor
ahead of it, such as where the first part of a sequence stopped. -/
theorem of_reaches (h : Carries f c) (hd : c.Reaches d) : Carries f d where
  monotone := h.monotone
  add i k hi := h.add i k (hd.offset_le.trans hi)
  fits := hd.offset_add_byteLength_rest ▸ h.fits

/-- The span of a node is renumbered exactly, since it has not been cut off at the greatest offset
that a span can hold. -/
theorem span_of (h : Carries f c) (hd : c.Reaches d) :
    (Span.of c.offset d.offset).relocate f = .of (f c.offset) (f d.offset) := by
  obtain ⟨hstart, hstop⟩ := Span.toNat_of_fits h.fits hd
  rw [Span.relocate, hstart, hstop]

/-- Making a branch and renumbering it can be done in either order. -/
theorem enclose (h : Carries f c) (label : Label) {parts : Outcome (List (Node Unit))}
    (hparts : parts.InReach c) :
    (parts.enclose label c).relocate f = (parts.relocateAll f).enclose label (c.relocate f) := by
  cases parts with
  | failed offset => rfl
  | matched children stop =>
    simp only [Outcome.relocate, Outcome.relocateAll, Outcome.renumber, Outcome.enclose_matched,
      Node.relocate, h.span_of hparts, Cursor.relocate_offset]

/-- Terminals look only at the rest of the text. -/
theorem accept? (h : Carries f c) (t : Terminal) :
    t.accept? (c.relocate f) = (t.accept? c).map (Cursor.relocate f) := by
  have hnext : ∀ p : Char → Bool,
      (c.relocate f).next? p = (c.next? p).map (Cursor.relocate f) := by
    intro p
    obtain ⟨offset, rest⟩ := c
    cases rest with
    | nil => rfl
    | cons x rest =>
      simp only [Cursor.next?, Cursor.relocate, apply_ite (Option.map (Cursor.relocate f)),
        Option.map_some, Option.map_none, h.add offset _ (Nat.le_refl _)]
  cases t with
  | literal text =>
    simp only [Terminal.accept?, Cursor.skip?, Option.map_map, Cursor.relocate_offset,
      Cursor.relocate_rest, ← h.add c.offset _ (Nat.le_refl _)]
    rfl
  | charSet set => exact hnext _
  | charRange first last => exact hnext _
  | any => exact hnext _
  | endOfInput =>
    obtain ⟨offset, rest⟩ := c
    cases rest <;> rfl

/-- Offsets that something was added to. -/
theorem shift {k : Nat} (hfits : c.offset + Text.byteLength c.rest ≤ maxInputLength) :
    Carries (k + ·) c where
  monotone _ _ h := Nat.add_le_add_left h k
  add i d _ := (Nat.add_assoc k i d).symm
  fits := hfits

/-- The way back. -/
theorem unshift {k : Nat} (hk : k ≤ c.offset)
    (hfits : c.offset + Text.byteLength c.rest ≤ maxInputLength) : Carries (· - k) c where
  monotone _ _ h := Nat.sub_le_sub_right h k
  add _ _ hi := Nat.sub_add_comm (hk.trans hi)
  fits := hfits

end Carries

/-! ### Runs -/

namespace Engine

variable {g : Grammar} {f : Nat → Nat}

mutual

/-- **A run carried along.** At the renumbered cursor there is the run with the renumbered steps
and the renumbered outcome. -/
theorem Runs.relocate {n : Nat} {e : Expr} {c : Cursor} {steps : List Step}
    {o : Outcome (Node Unit)} : Runs g n e c steps o → Carries f c →
      Runs g n e (c.relocate f) (steps.map (Step.relocate f)) (o.relocate f)
  | .accepted h ho, hf => by
    subst ho
    rw [relocate_framed]
    refine .accepted ((hf.accept? _).trans (congrArg _ h)) ?_
    simp only [Outcome.relocate, Outcome.renumber, Node.relocate,
      hf.span_of (Terminal.reaches_of_accept? h), Cursor.relocate_offset]
  | .rejected h, hf => by
    rw [relocate_framed]
    exact .rejected ((hf.accept? _).trans (congrArg _ h))
  | .sequence h ho, hf => by
    subst ho
    rw [relocate_framed, List.map_append, relocate_nodeSteps f (Node.relocateAll f)]
    exact .sequence (h.relocate hf) (hf.enclose _ h.inReach)
  | .choice h ho, hf => by
    subst ho
    have hreach := (h.inReach (Cursor.reachesOffset_self _)).map fun node => [node]
    rw [relocate_framed, List.map_append, relocate_nodeSteps f (Node.relocate f)]
    refine .choice (h.relocate hf) ?_
    rw [hf.enclose _ hreach, Outcome.relocateAll_map_singleton]
    rfl
  | .repeated h ho, hf => by
    subst ho
    rw [relocate_framed, List.map_append, relocate_nodeSteps f (Node.relocateAll f)]
    exact .repeated (h.relocate hf) (hf.enclose _ h.inReach)
  | .rule hr h ho, hf => by
    subst ho
    have hreach := (h.inReach (Cursor.reachesOffset_self _)).map fun node => [node]
    rw [relocate_framed, relocate_ruleSteps]
    refine .rule hr (h.relocate hf) ?_
    rw [hf.enclose _ hreach, Outcome.relocateAll_map_singleton]

/-- Each element of a sequence begins where the one before it stopped, so the renumbering is carried
along by `of_reaches`. -/
theorem RunsEach.relocate {n : Nat} {es : List Expr} {c : Cursor} {steps : List Step}
    {o : Outcome (List (Node Unit))} : RunsEach g n es c steps o → Carries f c →
      RunsEach g n es (c.relocate f) (steps.map (Step.relocate f)) (o.relocateAll f)
  | .nil, _ => .nil
  | .cons h hs, hf => by
    rw [List.map_append, Outcome.relocateAll_map_cons]
    exact .cons (h.relocate hf) (hs.relocate (hf.of_reaches h.inReach))
  | .stuck h, hf => .stuck (h.relocate hf)

theorem RunsFirst.relocate {n : Nat} {es : List Expr} {c : Cursor} {furthest : Nat}
    {steps : List Step} {o : Outcome (Node Unit)} :
    RunsFirst g n es c furthest steps o → Carries f c →
      RunsFirst g n es (c.relocate f) (f furthest) (steps.map (Step.relocate f)) (o.relocate f)
  | .nil, _ => .nil
  | .hit h, hf => .hit (h.relocate hf)
  | .miss h hs, hf => by
    rw [List.map_append, List.map_append, relocate_giveUpSteps]
    -- the rightmost of the renumbered failures is the renumbering of the rightmost
    have hrest := hs.relocate hf
    rw [hf.monotone.map_max] at hrest
    exact .miss (h.relocate hf) hrest

theorem RunsMany.relocate {n : Nat} {e : Expr} {bounds : Bounds} {count : Nat} {c : Cursor}
    {steps : List Step} {o : Outcome (List (Node Unit))} :
    RunsMany g n e bounds count c steps o → Carries f c →
      RunsMany g n e bounds count (c.relocate f) (steps.map (Step.relocate f)) (o.relocateAll f)
  | .full hb, _ => .full hb
  | .enough hb h hc, hf => .enough hb (h.relocate hf) hc
  | .tooFew hb h hc, hf => .tooFew hb (h.relocate hf) hc
  | .idle hb h hs, hf => .idle hb (h.relocate hf) hs
  | .again hb h hs hm, hf => by
    rw [List.map_append, Outcome.relocateAll_map_cons]
    exact .again hb (h.relocate hf) hs (hm.relocate (hf.of_reaches h.inReach))

end

/-! ### The engine -/

variable {id : RuleId} {c : Cursor} {k : Nat}

/-- What never returns at the renumbered cursor never returns at the cursor itself: a run from there
would have been carried along. -/
theorem Diverges.of_relocate (h : Diverges g id (c.relocate f)) (hf : Carries f c) :
    Diverges g id c := by
  have hid := h.declares
  rw [diverges_iff hid] at h ⊢
  intro n steps o hrun
  exact h _ _ _ (hrun.relocate hf)

/-- **A call with text put in front of it never returns exactly if it never returns without.** -/
theorem diverges_shift_iff (hfits : k + c.offset + Text.byteLength c.rest ≤ maxInputLength) :
    Diverges g id (c.relocate (k + ·)) ↔ Diverges g id c := by
  constructor
  · intro h
    exact h.of_relocate (.shift (by omega))
  · intro h
    have hback : (c.relocate (k + ·)).relocate (· - k) = c := by simp [Cursor.relocate]
    rw [← hback] at h
    exact h.of_relocate (.unshift (Nat.le_add_right k c.offset) hfits)

end Engine

/-! ### Text in front -/

/-- Text in front moves two cursors by the same amount, and what stands between them stays. -/
theorem Cursor.Reaches.shift {c d : Cursor} (h : c.Reaches d) (k : Nat) :
    (c.relocate (k + ·)).Reaches (d.relocate (k + ·)) := by
  obtain ⟨mid, hrest, hoffset⟩ := h
  exact ⟨mid, hrest, by simp only [relocate_offset, hoffset, Nat.add_assoc]⟩

/-- The ends of a span grow by exactly what the offsets grow by. -/
theorem Covers.toNat_span_shift {P : Node Unit → Cursor → Cursor → Prop} {n : Node Unit}
    {c d : Cursor} {k : Nat} (h : Covers P n c d)
    (hfits : k + c.offset + Text.byteLength c.rest ≤ maxInputLength) :
    (n.relocate (k + ·)).span.start.toNat = k + n.span.start.toNat ∧
      (n.relocate (k + ·)).span.stop.toNat = k + n.span.stop.toNat := by
  have hcarries : Carries (k + ·) c := .shift (by omega)
  obtain ⟨hstart, hstop⟩ := Span.toNat_of_fits hcarries.fits h.reaches
  rw [Node.span_relocate, h.span_eq, hcarries.span_of h.reaches, hstart, hstop]
  exact Span.toNat_of_fits hfits (h.reaches.shift k)

/-- The cursor at a position of a text, with another text in front of it. -/
theorem Cursor.at?_append {front text : List Char} {i : Nat} {c : Cursor}
    (h : Cursor.at? text i = some c) :
    Cursor.at? (front ++ text) (Text.byteLength front + i)
      = some (c.relocate (Text.byteLength front + ·)) := by
  obtain ⟨⟨before, hsplit, hoffset⟩, rfl⟩ := Cursor.at?_eq_some_iff.mp h
  refine Cursor.at?_eq_some_iff.mpr ⟨⟨front ++ before, ?_, ?_⟩, rfl⟩
  · rw [Cursor.relocate_rest, List.append_assoc, ← hsplit]
    rfl
  · rw [Cursor.relocate_offset, hoffset, Text.byteLength_append]
    simp [Cursor.start]

namespace Grammar

variable {g : Grammar} {id : RuleId} {text text' : String} {i j k : Nat} {c : Cursor}

/-- An attempt at a position with the same text ahead of it comes to the same, renumbered, whether
it returns or not. -/
theorem attempt_shift (hlen : Text.byteLength text.toList ≤ maxInputLength)
    (hlen' : Text.byteLength text'.toList ≤ maxInputLength)
    (hc : Cursor.at? text.toList i = some c)
    (hc' : Cursor.at? text'.toList j = some (c.relocate (k + ·)))
    (hfits : k + c.offset + Text.byteLength c.rest ≤ maxInputLength) (mode : MatchMode) :
    g.attempt id text' j mode = (g.attempt id text i mode).map (Outcome.relocate (k + ·)) := by
  by_cases hid : g.Declares id
  · rcases attempt_cases hlen hc hid mode with ⟨n, steps, o, hrun, ho⟩ | ⟨hdiv, herror⟩
    · rw [ho, attempt_eq_ok hlen' hc' (hrun.relocate (.shift (by omega)))]
      rfl
    · rw [herror, attempt_eq_error hlen' hc' ((diverges_shift_iff hfits).mpr hdiv)]
      rfl
  · rw [attempt_of_not_declares hlen hc hid, attempt_of_not_declares hlen' hc' hid]
    rfl

end Grammar

/-- **Matching looks only ahead.** Put any text `front` before a text, so that the two together are
short enough to be parsed, and try a rule at a position of the text and at the same place behind
`front`. The second attempt has the outcome of the first with the length of `front` added to every
offset, and never returns exactly if the first never returns. If they return, the spans of the two
trees differ by exactly that length, every observer of the second match is told of the events that
an observer of the first is told of, moved by that length, and the statistics of both are equal. -/
theorem matching_looks_only_ahead (g : Grammar) (id : RuleId) (mode : MatchMode)
    {front text : String} {i : Nat}
    (hlen : Text.byteLength front.toList + Text.byteLength text.toList ≤ maxInputLength)
    (hi : Text.isBoundary text.toList i = true) :
    let k := Text.byteLength front.toList
    g.attempt id (front ++ text) (k + i) mode
        = (g.attempt id text i mode).map (Outcome.relocate (k + ·)) ∧
      ∃ c c', Cursor.at? text.toList i = some c ∧
        Cursor.at? (front ++ text).toList (k + i) = some c' ∧
        (Diverges g id c' ↔ Diverges g id c) ∧
        ∀ o, g.attempt id text i mode = .ok o →
          (∀ node stop, o = .matched node stop → ∀ m, node.Contains m →
            (m.relocate (k + ·)).span.start.toNat = k + m.span.start.toNat ∧
              (m.relocate (k + ·)).span.stop.toNat = k + m.span.stop.toNat) ∧
          ∃ events : List Event, ∀ (σ : Type) (w : Watch σ) (m : Monitor σ), ∃ m₁ m₂,
            (g.matchRule w id c mode).run m = .ok (o, m₁) ∧
            (g.matchRule w id c' mode).run m = .ok (o.relocate (k + ·), m₂) ∧
            m₁.observer = events.foldl w.handle m.observer ∧
            m₂.observer = (events.map (Event.relocate (k + ·))).foldl w.handle m.observer ∧
            m₂.stats = m₁.stats := by
  intro k
  obtain ⟨c, hc⟩ := Cursor.exists_at?_of_isBoundary hi
  have hreach := (Cursor.at?_eq_some_iff.mp hc).1
  have hrest := Cursor.offset_add_byteLength_rest hreach
  have hfits : k + c.offset + Text.byteLength c.rest ≤ maxInputLength := by omega
  have hjoined : Text.byteLength (front ++ text).toList ≤ maxInputLength := by
    rwa [String.toList_append, Text.byteLength_append]
  have hc' : Cursor.at? (front ++ text).toList (k + i) = some (c.relocate (k + ·)) := by
    rw [String.toList_append]
    exact Cursor.at?_append hc
  refine ⟨Grammar.attempt_shift (by omega) hjoined hc hc' hfits mode, c, _, hc, hc',
    diverges_shift_iff hfits, fun o ho => ?_⟩
  obtain ⟨-, d, n, steps, hd, hrun⟩ := Grammar.exists_runs_of_attempt ho
  obtain rfl : c = d := Option.some.inj (hc.symm.trans hd)
  refine ⟨?_, eventsOf steps, fun σ w m => ?_⟩
  · rintro node stop rfl m hm
    obtain ⟨a, b, ha, hcovers⟩ := hrun.covers.exists_covers_of_contains hm
    have hend := ha.offset_add_byteLength_rest
    exact hcovers.toNat_span_shift (by omega)
  · refine ⟨_, _, matchRule_run_of_runs hrun w mode m,
      matchRule_run_of_runs (hrun.relocate (.shift (by omega))) w mode m,
      Monitor.observer_replay w m steps, ?_, Monitor.stats_replay_relocate _ w steps m m rfl rfl⟩
    rw [Monitor.observer_replay, eventsOf_relocate]

/-- A word at the end of the text. A word with a mark behind it is tried first. -/
def lastWord : Grammar where
  rules := #[
    ⟨"last", [.sequence [.literal "é", .literal "!"],
      .sequence [.rule ⟨1⟩, .terminal .endOfInput]], nofun⟩,
    ⟨"word", [.repeated (.charSet "éo") .oneToMany], nofun⟩]
  start := ⟨0⟩
  valid := rfl

/-- The match of a word after the first byte of a text. -/
def lastWordNode : Node Unit :=
  .branch (.rule "last") (.of 1 4) [.branch .sequence (.of 1 4) [
    .branch (.rule "word") (.of 1 4) [.branch (.repeated .oneToMany) (.of 1 4) [
      .leaf .charSet (.of 1 3) (), .leaf .charSet (.of 3 4) ()]],
    .leaf .endOfInput (.of 4 4) ()]]

/-- A line break and a character of two bytes in front move the match by three bytes. -/
theorem lastWord_moved :
    lastWord.attempt ⟨0⟩ "xéo" 1 .lexical = .ok (.matched lastWordNode ⟨4, []⟩) ∧
    lastWord.attempt ⟨0⟩ ("é\n" ++ "xéo") 4 .lexical
      = .ok (.matched (lastWordNode.relocate (3 + ·)) ⟨7, []⟩) ∧
    (∀ m, lastWordNode.Contains m →
      (m.relocate (3 + ·)).span.start.toNat = 3 + m.span.start.toNat) ∧
    ∃ events : List Event, ∀ (σ : Type) (w : Watch σ) (m : Monitor σ), ∃ m₁ m₂,
      (lastWord.matchRule w ⟨0⟩ ⟨1, ['é', 'o']⟩ .lexical).run m
        = .ok (.matched lastWordNode ⟨4, []⟩, m₁) ∧
      (lastWord.matchRule w ⟨0⟩ ⟨4, ['é', 'o']⟩ .lexical).run m
        = .ok (.matched (lastWordNode.relocate (3 + ·)) ⟨7, []⟩, m₂) ∧
      m₁.observer = events.foldl w.handle m.observer ∧
      m₂.observer = (events.map (Event.relocate (3 + ·))).foldl w.handle m.observer ∧
      m₂.stats = m₁.stats := by
  have hattempt : lastWord.attempt ⟨0⟩ "xéo" 1 .lexical
      = .ok (.matched lastWordNode ⟨4, []⟩) := by decide +kernel
  obtain ⟨hmoved, c, c', hc, hc', -, hreturns⟩ :=
    @matching_looks_only_ahead lastWord ⟨0⟩ .lexical "é\n" "xéo" 1 (by decide +kernel)
      (by decide +kernel)
  obtain ⟨hspans, events, hevents⟩ := hreturns _ hattempt
  obtain rfl : ⟨1, ['é', 'o']⟩ = c := Option.some.inj (Eq.trans (by decide +kernel) hc)
  obtain rfl : ⟨4, ['é', 'o']⟩ = c' := Option.some.inj (Eq.trans (by decide +kernel) hc')
  rw [hattempt] at hmoved
  exact ⟨hattempt, hmoved, fun m hm => (hspans _ _ rfl m hm).1, events, hevents⟩

end PegGrammar
