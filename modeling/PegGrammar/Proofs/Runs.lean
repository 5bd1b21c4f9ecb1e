import PegGrammar.Match.Engine

/-!
# The course of a match

`Engine.attempt` is a program: it threads an observer, counters and a bound on nested calls
through its recursion. What it does is said here once, as a relation, and everything else about
matching is proved from the relation by induction on its derivations.

`Runs g n e c steps o` says that matching `e` at `c`, with rule calls nested at most `n` deep,
goes through exactly the steps `steps` and has the outcome `o`. The three companions say the same
of the parts of a sequence, of the alternatives of a choice and of the rounds of a repetition.

## What the steps are for

A step list records more than an observer is told: every attempt of an expression at a cursor is
there twice, when it is made and when it is settled. So "at every attempt of the run" is a
statement about members of a list. What reaches the monitor is recovered by `Monitor.replay`,
which passes over the entries that no observer sees.

## Why the depth is an index

A derivation is finite, so a match that goes on for ever has none, and the depth could have been
left out. It is kept because the engine stops at a bound: at each depth the relation and the
engine can be compared exactly, and whether the bound matters becomes a question about the
relation alone.

## Main definitions

* `Step`, `Monitor.note`, `Monitor.replay` — what happens in a match, and what a monitor makes of it
* `Runs`, `RunsEach`, `RunsFirst`, `RunsMany` — the course of a match

## Main results

* `runs_terminal_iff`, …, `runs_rule_iff` — the last rule of a derivation, read off the expression
* `Runs.mono` — a greater depth changes nothing
-/

namespace PegGrammar

/-! ### Outcomes -/

namespace Outcome

variable {α β : Type}

/-- Change what a match yields. -/
def map (f : α → β) : Outcome α → Outcome β
  | .matched value stop => .matched (f value) stop
  | .failed offset => .failed offset

/-- The offset at which a match ends or a failed attempt got stuck. -/
def position : Outcome α → Nat
  | .matched _ stop => stop.offset
  | .failed offset => offset

/-- The outcome of a combination that was tried at `c`, from the outcome of its parts. -/
def enclose (label : Label) (c : Cursor) : Outcome (List (Node Unit)) → Outcome (Node Unit)
  | .matched children stop => .matched (.branch label (Span.of c.offset stop.offset) children) stop
  | .failed offset => .failed offset

@[simp] theorem map_matched (f : α → β) (value : α) (stop : Cursor) :
    (matched value stop).map f = matched (f value) stop := rfl

@[simp] theorem map_failed (f : α → β) (offset : Nat) :
    (failed offset : Outcome α).map f = failed offset := rfl

@[simp] theorem enclose_matched (label : Label) (c : Cursor) (children : List (Node Unit))
    (stop : Cursor) :
    (matched children stop).enclose label c
      = matched (.branch label (Span.of c.offset stop.offset) children) stop := rfl

@[simp] theorem enclose_failed (label : Label) (c : Cursor) (offset : Nat) :
    (failed offset).enclose label c = failed offset := rfl

end Outcome

namespace Engine

/-! ### Steps -/

/-- One thing that happens in the course of a match. -/
inductive Step where
  /-- An expression is tried at a cursor. -/
  | tried (e : Expr) (c : Cursor)
  /-- The attempt of an expression at a cursor has an outcome. -/
  | settled (e : Expr) (c : Cursor) (o : Outcome (Node Unit))
  /-- The observer is told of an event. -/
  | told (event : Event)
  /-- A node is made. -/
  | made

/-- The steps of an attempt: those of its form, between the two that frame them. -/
def framed (e : Expr) (c : Cursor) (body : List Step) (o : Outcome (Node Unit)) : List Step :=
  .tried e c :: body ++ [.settled e c o]

/-- A match makes a node, and a failure makes none. -/
def nodeSteps {α : Type} (o : Outcome α) : List Step := if o.isMatched then [.made] else []

/-- The steps between the attempts of two alternatives: the first is given up for the rest, if
there is a rest. -/
def giveUpSteps (rest : List Expr) (failure restart : Nat) : List Step :=
  if rest.isEmpty then [] else [.told (.backtrack failure restart)]

/-- The steps of a call of a rule around those of its alternatives. -/
def ruleSteps {α : Type} (name : String) (c : Cursor) (body : List Step) (o : Outcome α) :
    List Step :=
  .told (.enter name c.offset) :: body ++
    (.told (.exit name o.position o.isMatched) :: nodeSteps o)

@[simp] theorem nodeSteps_matched {α : Type} (value : α) (stop : Cursor) :
    nodeSteps (.matched value stop) = [.made] := rfl

@[simp] theorem nodeSteps_failed {α : Type} (offset : Nat) :
    nodeSteps (.failed offset : Outcome α) = [] := rfl

end Engine

namespace Monitor

open Engine

variable {σ : Type}

/-- The monitor after one more step. -/
def note (w : Watch σ) (m : Monitor σ) : Step → Monitor σ
  | .tried _ _ | .settled _ _ _ => m
  | .made => { m with stats := if w.counting then m.stats.addNode else m.stats }
  | .told (.enter rule position) =>
    { observer := w.handle m.observer (.enter rule position)
      stats := if w.counting then m.stats.addAttempt (m.depth + 1) else m.stats
      depth := m.depth + 1 }
  | .told (.exit rule position success) =>
    { observer := w.handle m.observer (.exit rule position success)
      stats := m.stats
      depth := m.depth - 1 }
  | .told (.backtrack failure restart) =>
    { observer := w.handle m.observer (.backtrack failure restart)
      stats := if w.counting then m.stats.addBacktrack else m.stats
      depth := m.depth }

/-- The monitor after a whole list of steps. -/
def replay (w : Watch σ) (m : Monitor σ) (steps : List Step) : Monitor σ := steps.foldl (note w) m

@[simp] theorem replay_nil (w : Watch σ) (m : Monitor σ) : m.replay w [] = m := rfl

@[simp] theorem replay_cons (w : Watch σ) (m : Monitor σ) (s : Step) (steps : List Step) :
    m.replay w (s :: steps) = (m.note w s).replay w steps := rfl

/-- A monitor sees a course step by step, so that what it makes of two courses in a row is what it
makes of the second after the first. -/
@[simp] theorem replay_append (w : Watch σ) (m : Monitor σ) (steps more : List Step) :
    m.replay w (steps ++ more) = (m.replay w steps).replay w more :=
  List.foldl_append

/-- The frame of an attempt is not seen by any observer. -/
@[simp] theorem replay_framed (w : Watch σ) (m : Monitor σ) (e : Expr) (c : Cursor)
    (body : List Step) (o : Outcome (Node Unit)) :
    m.replay w (framed e c body o) = m.replay w body := by
  simp [framed, note]

end Monitor

namespace Engine

/-! ### The relation -/

mutual

/-- Matching an expression at a cursor, with rule calls nested at most so deep, goes through these
steps and has this outcome. -/
inductive Runs (g : Grammar) : Nat → Expr → Cursor → List Step → Outcome (Node Unit) → Prop
  /-- A terminal accepts the text at the cursor. -/
  | accepted {n : Nat} {t : Terminal} {c stop : Cursor} {o : Outcome (Node Unit)} :
    t.accept? c = some stop →
    o = .matched (.leaf t.label (Span.of c.offset stop.offset) ()) stop →
    Runs g n (.terminal t) c (framed (.terminal t) c [.made] o) o
  /-- A terminal does not accept the text at the cursor. -/
  | rejected {n : Nat} {t : Terminal} {c : Cursor} :
    t.accept? c = none →
    Runs g n (.terminal t) c (framed (.terminal t) c [] (.failed c.offset)) (.failed c.offset)
  /-- A sequence does what its elements do. -/
  | sequence {n : Nat} {es : List Expr} {c : Cursor} {body : List Step}
      {parts : Outcome (List (Node Unit))} {o : Outcome (Node Unit)} :
    RunsEach g n es c body parts →
    o = parts.enclose .sequence c →
    Runs g n (.sequence es) c (framed (.sequence es) c (body ++ nodeSteps parts) o) o
  /-- A choice does what its alternatives do. -/
  | choice {n : Nat} {es : List Expr} {c : Cursor} {body : List Step}
      {part o : Outcome (Node Unit)} :
    RunsFirst g n es c c.offset body part →
    o = (part.map fun node => [node]).enclose .choice c →
    Runs g n (.choice es) c (framed (.choice es) c (body ++ nodeSteps part) o) o
  /-- A repetition does what its rounds do. -/
  | repeated {n : Nat} {e : Expr} {bounds : Bounds} {c : Cursor} {body : List Step}
      {parts : Outcome (List (Node Unit))} {o : Outcome (Node Unit)} :
    RunsMany g n e bounds 0 c body parts →
    o = parts.enclose (.repeated bounds) c →
    Runs g n (.repeated e bounds) c (framed (.repeated e bounds) c (body ++ nodeSteps parts) o) o
  /-- A rule does what its alternatives do, one call deeper. -/
  | rule {n : Nat} {id : RuleId} {r : Rule} {c : Cursor} {body : List Step}
      {part o : Outcome (Node Unit)} :
    g.rule? id = some r →
    RunsFirst g n r.alternatives c c.offset body part →
    o = (part.map fun node => [node]).enclose (.rule r.name) c →
    Runs g (n + 1) (.rule id) c (framed (.rule id) c (ruleSteps r.name c body part) o) o

/-- Matching expressions one after the other goes through these steps and has this outcome. -/
inductive RunsEach (g : Grammar) :
    Nat → List Expr → Cursor → List Step → Outcome (List (Node Unit)) → Prop
  /-- Nothing is left to match. -/
  | nil {n : Nat} {c : Cursor} : RunsEach g n [] c [] (.matched [] c)
  /-- The first expression matches, and the others are matched where it ended. -/
  | cons {n : Nat} {e : Expr} {es : List Expr} {c stop : Cursor} {node : Node Unit}
      {first more : List Step} {others : Outcome (List (Node Unit))} :
    Runs g n e c first (.matched node stop) →
    RunsEach g n es stop more others →
    RunsEach g n (e :: es) c (first ++ more) (others.map (node :: ·))
  /-- The first expression fails, and the others are not tried. -/
  | stuck {n : Nat} {e : Expr} {es : List Expr} {c : Cursor} {first : List Step} {offset : Nat} :
    Runs g n e c first (.failed offset) →
    RunsEach g n (e :: es) c first (.failed offset)

/-- Matching the first of several expressions that matches, after failures that got as far as an
offset, goes through these steps and has this outcome. -/
inductive RunsFirst (g : Grammar) :
    Nat → List Expr → Cursor → Nat → List Step → Outcome (Node Unit) → Prop
  /-- No alternative is left. -/
  | nil {n : Nat} {c : Cursor} {furthest : Nat} :
    RunsFirst g n [] c furthest [] (.failed furthest)
  /-- The first alternative matches, and the others are not tried. -/
  | hit {n : Nat} {e : Expr} {es : List Expr} {c stop : Cursor} {furthest : Nat}
      {node : Node Unit} {first : List Step} :
    Runs g n e c first (.matched node stop) →
    RunsFirst g n (e :: es) c furthest first (.matched node stop)
  /-- The first alternative fails, and the others are tried. -/
  | miss {n : Nat} {e : Expr} {es : List Expr} {c : Cursor} {furthest offset : Nat}
      {first more : List Step} {o : Outcome (Node Unit)} :
    Runs g n e c first (.failed offset) →
    RunsFirst g n es c (max furthest offset) more o →
    RunsFirst g n (e :: es) c furthest (first ++ giveUpSteps es offset c.offset ++ more) o

/-- Matching an expression again and again, after it has matched so many times, goes through these
steps and has this outcome. -/
inductive RunsMany (g : Grammar) :
    Nat → Expr → Bounds → Nat → Cursor → List Step → Outcome (List (Node Unit)) → Prop
  /-- The bounds allow no further match. -/
  | full {n : Nat} {e : Expr} {bounds : Bounds} {count : Nat} {c : Cursor} :
    bounds.allowsMore count = false →
    RunsMany g n e bounds count c [] (.matched [] c)
  /-- The text permits no further match, and none is needed. -/
  | enough {n : Nat} {e : Expr} {bounds : Bounds} {count : Nat} {c : Cursor} {round : List Step}
      {offset : Nat} :
    bounds.allowsMore count = true →
    Runs g n e c round (.failed offset) →
    bounds.min ≤ count →
    RunsMany g n e bounds count c round (.matched [] c)
  /-- The text permits no further match, but one is needed. -/
  | tooFew {n : Nat} {e : Expr} {bounds : Bounds} {count : Nat} {c : Cursor} {round : List Step}
      {offset : Nat} :
    bounds.allowsMore count = true →
    Runs g n e c round (.failed offset) →
    count < bounds.min →
    RunsMany g n e bounds count c round (.failed offset)
  /-- A match that consumes nothing is the last. -/
  | idle {n : Nat} {e : Expr} {bounds : Bounds} {count : Nat} {c stop : Cursor}
      {node : Node Unit} {round : List Step} :
    bounds.allowsMore count = true →
    Runs g n e c round (.matched node stop) →
    ¬ stop.rest.length < c.rest.length →
    RunsMany g n e bounds count c round (.matched [node] stop)
  /-- After a match that consumes something there is another round. -/
  | again {n : Nat} {e : Expr} {bounds : Bounds} {count : Nat} {c stop : Cursor}
      {node : Node Unit} {round more : List Step} {others : Outcome (List (Node Unit))} :
    bounds.allowsMore count = true →
    Runs g n e c round (.matched node stop) →
    stop.rest.length < c.rest.length →
    RunsMany g n e bounds (count + 1) stop more others →
    RunsMany g n e bounds count c (round ++ more) (others.map (node :: ·))

end

variable {g : Grammar} {n k : Nat} {e : Expr} {es : List Expr} {bounds : Bounds} {count : Nat}
  {id : RuleId} {t : Terminal} {c : Cursor} {furthest : Nat} {steps : List Step}

/-! ### Reading a derivation backwards

The expression decides which rule a derivation ends with. -/

/-- The last rule of a derivation can be read off the expression. For a terminal it is one of two,
depending on what the terminal accepts. -/
theorem runs_terminal_iff {o : Outcome (Node Unit)} :
    Runs g n (.terminal t) c steps o ↔
      (∃ stop, t.accept? c = some stop ∧
        o = .matched (.leaf t.label (Span.of c.offset stop.offset) ()) stop ∧
        steps = framed (.terminal t) c [.made] o) ∨
      (t.accept? c = none ∧ o = .failed c.offset ∧ steps = framed (.terminal t) c [] o) := by
  constructor
  · rintro (⟨h, ho⟩ | h)
    · exact Or.inl ⟨_, h, ho, rfl⟩
    · exact Or.inr ⟨h, rfl, rfl⟩
  · rintro (⟨stop, h, ho, rfl⟩ | ⟨h, rfl, rfl⟩)
    · exact .accepted h ho
    · exact .rejected h

/-- The parts of a sequence are matched one after the other, and the steps of the sequence are
theirs with those of its own node behind them. -/
theorem runs_sequence_iff {o : Outcome (Node Unit)} :
    Runs g n (.sequence es) c steps o ↔
      ∃ body parts, RunsEach g n es c body parts ∧ o = parts.enclose .sequence c ∧
        steps = framed (.sequence es) c (body ++ nodeSteps parts) o := by
  constructor
  · intro h
    cases h with
    | sequence h ho => exact ⟨_, _, h, ho, rfl⟩
  · rintro ⟨body, parts, h, ho, rfl⟩
    exact .sequence h ho

/-- A choice wraps the alternative that matched in a node of its own. The offset of the cursor is
where the search for the rightmost failure begins. -/
theorem runs_choice_iff {o : Outcome (Node Unit)} :
    Runs g n (.choice es) c steps o ↔
      ∃ body part, RunsFirst g n es c c.offset body part ∧
        o = (part.map fun node => [node]).enclose .choice c ∧
        steps = framed (.choice es) c (body ++ nodeSteps part) o := by
  constructor
  · intro h
    cases h with
    | choice h ho => exact ⟨_, _, h, ho, rfl⟩
  · rintro ⟨body, part, h, ho, rfl⟩
    exact .choice h ho

/-- A repetition is its rounds, counted from none. -/
theorem runs_repeated_iff {o : Outcome (Node Unit)} :
    Runs g n (.repeated e bounds) c steps o ↔
      ∃ body parts, RunsMany g n e bounds 0 c body parts ∧
        o = parts.enclose (.repeated bounds) c ∧
        steps = framed (.repeated e bounds) c (body ++ nodeSteps parts) o := by
  constructor
  · intro h
    cases h with
    | repeated h ho => exact ⟨_, _, h, ho, rfl⟩
  · rintro ⟨body, parts, h, ho, rfl⟩
    exact .repeated h ho

/-- The only form that goes one level down: the alternatives of the rule run at a smaller depth than
the call. Every induction on the depth uses this lemma and no other. -/
theorem runs_rule_iff {o : Outcome (Node Unit)} :
    Runs g (n + 1) (.rule id) c steps o ↔
      ∃ r body part, g.rule? id = some r ∧ RunsFirst g n r.alternatives c c.offset body part ∧
        o = (part.map fun node => [node]).enclose (.rule r.name) c ∧
        steps = framed (.rule id) c (ruleSteps r.name c body part) o := by
  constructor
  · intro h
    cases h with
    | rule hr h ho => exact ⟨_, _, _, hr, h, ho, rfl⟩
  · rintro ⟨r, body, part, hr, h, ho, rfl⟩
    exact .rule hr h ho

/-- No call fits into depth zero. -/
theorem not_runs_rule_zero {o : Outcome (Node Unit)} : ¬ Runs g 0 (.rule id) c steps o := nofun

theorem runsEach_nil_iff {o : Outcome (List (Node Unit))} :
    RunsEach g n [] c steps o ↔ steps = [] ∧ o = .matched [] c := by
  constructor
  · rintro ⟨⟩
    exact ⟨rfl, rfl⟩
  · rintro ⟨rfl, rfl⟩
    exact .nil

/-- Either the first part matches, and its node is put in front of those of the other parts, or its
failure is that of the whole. -/
theorem runsEach_cons_iff {o : Outcome (List (Node Unit))} :
    RunsEach g n (e :: es) c steps o ↔
      (∃ first node stop more others, Runs g n e c first (.matched node stop) ∧
        RunsEach g n es stop more others ∧ steps = first ++ more ∧
        o = others.map (node :: ·)) ∨
      (∃ offset, Runs g n e c steps (.failed offset) ∧ o = .failed offset) := by
  constructor
  · rintro (_ | ⟨h, hs⟩ | h)
    · exact Or.inl ⟨_, _, _, _, _, h, hs, rfl, rfl⟩
    · exact Or.inr ⟨_, h, rfl⟩
  · rintro (⟨first, node, stop, more, others, h, hs, rfl, rfl⟩ | ⟨offset, h, rfl⟩)
    · exact .cons h hs
    · exact .stuck h

theorem runsFirst_nil_iff {o : Outcome (Node Unit)} :
    RunsFirst g n [] c furthest steps o ↔ steps = [] ∧ o = .failed furthest := by
  constructor
  · rintro ⟨⟩
    exact ⟨rfl, rfl⟩
  · rintro ⟨rfl, rfl⟩
    exact .nil

/-- Either the first alternative matches, and the others are not tried, or it is given up for them
with the greater of the two offsets. There is nothing to give it up for if it is the last. -/
theorem runsFirst_cons_iff {o : Outcome (Node Unit)} :
    RunsFirst g n (e :: es) c furthest steps o ↔
      (∃ node stop, Runs g n e c steps (.matched node stop) ∧ o = .matched node stop) ∨
      (∃ first offset more, Runs g n e c first (.failed offset) ∧
        RunsFirst g n es c (max furthest offset) more o ∧
        steps = first ++ giveUpSteps es offset c.offset ++ more) := by
  constructor
  · rintro (_ | h | ⟨h, hs⟩)
    · exact Or.inl ⟨_, _, h, rfl⟩
    · exact Or.inr ⟨_, _, _, h, hs, rfl⟩
  · rintro (⟨node, stop, h, rfl⟩ | ⟨first, offset, more, h, hs, rfl⟩)
    · exact .hit h
    · exact .miss h hs

theorem runsMany_full_iff {o : Outcome (List (Node Unit))}
    (hb : bounds.allowsMore count = false) :
    RunsMany g n e bounds count c steps o ↔ steps = [] ∧ o = .matched [] c := by
  constructor
  · rintro (_ | ⟨hb', _, _⟩ | ⟨hb', _, _⟩ | ⟨hb', _, _⟩ | ⟨hb', _, _, _⟩)
    · exact ⟨rfl, rfl⟩
    all_goals rw [hb] at hb'; cases hb'
  · rintro ⟨rfl, rfl⟩
    exact .full hb

/-- While the bounds allow it there is one more round. It ends the repetition if it fails or
consumes nothing, and a failure is passed on only as long as the bounds ask for more. -/
theorem runsMany_more_iff {o : Outcome (List (Node Unit))}
    (hb : bounds.allowsMore count = true) :
    RunsMany g n e bounds count c steps o ↔
      (∃ offset, Runs g n e c steps (.failed offset) ∧
        ((bounds.min ≤ count ∧ o = .matched [] c) ∨
          (count < bounds.min ∧ o = .failed offset))) ∨
      (∃ node stop, Runs g n e c steps (.matched node stop) ∧
        ¬ stop.rest.length < c.rest.length ∧ o = .matched [node] stop) ∨
      (∃ round node stop more others, Runs g n e c round (.matched node stop) ∧
        stop.rest.length < c.rest.length ∧
        RunsMany g n e bounds (count + 1) stop more others ∧ steps = round ++ more ∧
        o = others.map (node :: ·)) := by
  constructor
  · rintro (hb' | ⟨_, h, hc⟩ | ⟨_, h, hc⟩ | ⟨_, h, hs⟩ | ⟨_, h, hs, hm⟩)
    · rw [hb] at hb'; cases hb'
    · exact Or.inl ⟨_, h, Or.inl ⟨hc, rfl⟩⟩
    · exact Or.inl ⟨_, h, Or.inr ⟨hc, rfl⟩⟩
    · exact Or.inr (Or.inl ⟨_, _, h, hs, rfl⟩)
    · exact Or.inr (Or.inr ⟨_, _, _, _, _, h, hs, hm, rfl, rfl⟩)
  · rintro (⟨offset, h, ⟨hc, rfl⟩ | ⟨hc, rfl⟩⟩ | ⟨node, stop, h, hs, rfl⟩ |
      ⟨round, node, stop, more, others, h, hs, hm, rfl, rfl⟩)
    · exact .enough hb h hc
    · exact .tooFew hb h hc
    · exact .idle hb h hs
    · exact .again hb h hs hm

/-! ### Greater depths -/

mutual

/-- A course at some depth is a course at the next. The four lemmas go together, as the relations
do, and nothing in a course depends on how much depth is left. -/
theorem Runs.succ {n : Nat} {e : Expr} {c : Cursor} {steps : List Step}
    {o : Outcome (Node Unit)} : Runs g n e c steps o → Runs g (n + 1) e c steps o
  | .accepted h ho => .accepted h ho
  | .rejected h => .rejected h
  | .sequence h ho => .sequence h.succ ho
  | .choice h ho => .choice h.succ ho
  | .repeated h ho => .repeated h.succ ho
  | .rule hr h ho => .rule hr h.succ ho

theorem RunsEach.succ {n : Nat} {es : List Expr} {c : Cursor} {steps : List Step}
    {o : Outcome (List (Node Unit))} : RunsEach g n es c steps o → RunsEach g (n + 1) es c steps o
  | .nil => .nil
  | .cons h hs => .cons h.succ hs.succ
  | .stuck h => .stuck h.succ

theorem RunsFirst.succ {n : Nat} {es : List Expr} {c : Cursor} {furthest : Nat}
    {steps : List Step} {o : Outcome (Node Unit)} :
    RunsFirst g n es c furthest steps o → RunsFirst g (n + 1) es c furthest steps o
  | .nil => .nil
  | .hit h => .hit h.succ
  | .miss h hs => .miss h.succ hs.succ

theorem RunsMany.succ {n : Nat} {e : Expr} {bounds : Bounds} {count : Nat} {c : Cursor}
    {steps : List Step} {o : Outcome (List (Node Unit))} :
    RunsMany g n e bounds count c steps o → RunsMany g (n + 1) e bounds count c steps o
  | .full hb => .full hb
  | .enough hb h hc => .enough hb h.succ hc
  | .tooFew hb h hc => .tooFew hb h.succ hc
  | .idle hb h hs => .idle hb h.succ hs
  | .again hb h hs hm => .again hb h.succ hs hm.succ

end

/-- A derivation at one depth is a derivation at every greater depth. -/
theorem Runs.mono {o : Outcome (Node Unit)} (hn : n ≤ k) (h : Runs g n e c steps o) :
    Runs g k e c steps o := by
  induction hn with
  | refl => exact h
  | step _ ih => exact ih.succ

theorem RunsEach.mono {o : Outcome (List (Node Unit))} (hn : n ≤ k)
    (h : RunsEach g n es c steps o) : RunsEach g k es c steps o := by
  induction hn with
  | refl => exact h
  | step _ ih => exact ih.succ

theorem RunsFirst.mono {o : Outcome (Node Unit)} (hn : n ≤ k)
    (h : RunsFirst g n es c furthest steps o) : RunsFirst g k es c furthest steps o := by
  induction hn with
  | refl => exact h
  | step _ ih => exact ih.succ

theorem RunsMany.mono {o : Outcome (List (Node Unit))} (hn : n ≤ k)
    (h : RunsMany g n e bounds count c steps o) : RunsMany g k e bounds count c steps o := by
  induction hn with
  | refl => exact h
  | step _ ih => exact ih.succ

/-! ### Parts at different depths

Parts that were derived at two depths are put together at the greater one. -/

/-- Courses of the parts may have been found at different depths. At the greater of them they can be
put together. -/
theorem RunsEach.cons_max {stop : Cursor} {node : Node Unit} {first more : List Step}
    {others : Outcome (List (Node Unit))} (h : Runs g n e c first (.matched node stop))
    (hs : RunsEach g k es stop more others) :
    RunsEach g (max n k) (e :: es) c (first ++ more) (others.map (node :: ·)) :=
  .cons (h.mono (Nat.le_max_left n k)) (hs.mono (Nat.le_max_right n k))

theorem RunsFirst.miss_max {offset : Nat} {first more : List Step} {o : Outcome (Node Unit)}
    (h : Runs g n e c first (.failed offset))
    (hs : RunsFirst g k es c (max furthest offset) more o) :
    RunsFirst g (max n k) (e :: es) c furthest
      (first ++ giveUpSteps es offset c.offset ++ more) o :=
  .miss (h.mono (Nat.le_max_left n k)) (hs.mono (Nat.le_max_right n k))

/-- A round and the rounds after it can be put together at the greater of their depths. -/
theorem RunsMany.again_max {stop : Cursor} {node : Node Unit} {round more : List Step}
    {others : Outcome (List (Node Unit))} (hb : bounds.allowsMore count = true)
    (h : Runs g n e c round (.matched node stop)) (hs : stop.rest.length < c.rest.length)
    (hm : RunsMany g k e bounds (count + 1) stop more others) :
    RunsMany g (max n k) e bounds count c (round ++ more) (others.map (node :: ·)) :=
  .again hb (h.mono (Nat.le_max_left n k)) hs (hm.mono (Nat.le_max_right n k))

end Engine

end PegGrammar
