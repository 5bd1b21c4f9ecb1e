import PegGrammar.Grammar.Basic
import PegGrammar.Match.Cursor
import PegGrammar.Match.Event
import PegGrammar.Match.Stats
import PegGrammar.Tree.Basic

/-!
# Matching

Expressions are matched by recursive descent with ordered choice: the first alternative that
matches is taken, and a failed alternative is given up and forgotten. A match yields a node for
every expression on the way; a failure yields the rightmost offset at which one of the
alternatives got stuck.

An observer is told of every rule entered and left and of every alternative given up, and counters
are kept on request. Neither has an influence on the outcome.

## Main definitions

* `Outcome` — a match or a failure
* `MatchMode` — as what a rule is matched
* `Watch`, `Monitor`, `Run` — what accompanies a match
* `attempt` — matching an expression, given how rules are called
* `callRule` — calling a rule with a bound on how deep calls may nest
* `Grammar.matchRule` — matching a rule

## Implementation notes

*Modes make no difference yet.* The mode is handed from a rule to its alternatives and on to the
rules that these call. No terminal looks at it, so that both modes match alike; what separates the
parts of syntactic structure could be passed over without another way of calling.

*Repetitions end.* A repetition stops as soon as a match consumes nothing, since the next one
would do the same, so every round but the last shortens the rest of the text.

*Rules end unless they cannot.* Whether a call of a rule matches depends only on the rule and the
position. A call inside another call of the same rule at the same position can therefore never
return, and calls nested deeper than there are pairs of a rule and a position must contain such a
repetition. `Grammar.depthLimit` is that number of pairs; going beyond it is the fault
`leftRecursion`, which says that the match has no outcome.
-/

namespace PegGrammar

/-! ### Outcomes and observation -/

/-- The outcome of an attempt to match. -/
inductive Outcome (α : Type) where
  /-- The text matched up to the cursor `stop`. -/
  | matched (value : α) (stop : Cursor)
  /-- The text did not match, and this is the offset at which the attempt got stuck. -/
  | failed (offset : Nat)
  deriving DecidableEq, Repr

namespace Outcome

variable {α : Type}

/-- Whether the attempt matched. -/
def isMatched : Outcome α → Bool
  | .matched _ _ => true
  | .failed _ => false

/-- The offset at which a match ends. -/
def end? : Outcome α → Option Nat
  | .matched _ stop => some stop.offset
  | .failed _ => none

/-- The offset at which a failed attempt got stuck. -/
def failedAt? : Outcome α → Option Nat
  | .matched _ _ => none
  | .failed offset => some offset

/-- What the match yielded. -/
def value? : Outcome α → Option α
  | .matched value _ => some value
  | .failed _ => none

end Outcome

/-- Whether a rule is matched as a lexical unit or as syntactic structure. -/
inductive MatchMode where
  /-- As an atomic lexical unit. -/
  | lexical
  /-- As structure. -/
  | syntactic
  deriving DecidableEq, Repr

/-- What a match is asked to report. -/
structure Watch (σ : Type) where
  /-- What the observer makes of an event. -/
  handle : σ → Event → σ
  /-- Whether statistics are kept. -/
  counting : Bool

/-- What accompanies a match. -/
structure Monitor (σ : Type) where
  /-- The observer. -/
  observer : σ
  /-- The statistics so far. -/
  stats : Stats := {}
  /-- The number of rules open. -/
  depth : Nat := 0

/-- A computation during a match: it may fault, and it carries the monitor along. -/
abbrev Run (σ : Type) := StateT (Monitor σ) (Except Fault)

namespace Engine

variable {σ : Type}

/-- Tell the observer of an event. -/
def emit (w : Watch σ) (e : Event) : Run σ Unit :=
  modify fun m => { m with observer := w.handle m.observer e }

/-- Change the statistics, if they are kept. -/
def count (w : Watch σ) (change : Stats → Stats) : Run σ Unit :=
  modify fun m => if w.counting then { m with stats := change m.stats } else m

/-- Open a rule. -/
def enter (w : Watch σ) (name : String) (position : Nat) : Run σ Unit := do
  modify fun m => { m with depth := m.depth + 1 }
  count w (Stats.addAttempt (← get).depth)
  emit w (.enter name position)

/-- Close a rule. -/
def leave (w : Watch σ) (name : String) (position : Nat) (success : Bool) : Run σ Unit := do
  modify fun m => { m with depth := m.depth - 1 }
  emit w (.exit name position success)

/-- Give up an alternative for the next one. -/
def giveUp (w : Watch σ) (failure restart : Nat) : Run σ Unit := do
  count w Stats.addBacktrack
  emit w (.backtrack failure restart)

/-- The match of a terminal. -/
def leaf (w : Watch σ) (label : Label) (start stop : Cursor) : Run σ (Outcome (Node Unit)) := do
  count w Stats.addNode
  return .matched (.leaf label (Span.of start.offset stop.offset) ()) stop

/-- The match of a combination. -/
def branch (w : Watch σ) (label : Label) (start : Cursor) (children : List (Node Unit))
    (stop : Cursor) : Run σ (Outcome (Node Unit)) := do
  count w Stats.addNode
  return .matched (.branch label (Span.of start.offset stop.offset) children) stop

/-! ### Repetition -/

/-- Match as often as the bounds allow and the text permits, after `count` matches: the further
matches, in order. A failure counts only while the bounds ask for more. -/
def iterate (step : Cursor → Run σ (Outcome (Node Unit))) (bounds : Bounds) (count : Nat)
    (c : Cursor) : Run σ (Outcome (List (Node Unit))) := do
  if bounds.allowsMore count then
    match ← step c with
    | .matched n stop =>
      if stop.rest.length < c.rest.length then
        match ← iterate step bounds (count + 1) stop with
        | .matched ns stop => return .matched (n :: ns) stop
        | .failed offset => return .failed offset
      else return .matched [n] stop
    | .failed offset =>
      if count < bounds.min then return .failed offset else return .matched [] c
  else return .matched [] c
termination_by c.rest.length

/-! ### Expressions -/

mutual

/-- Match an expression, where `call` matches a rule. -/
def attempt (w : Watch σ) (call : RuleId → Cursor → MatchMode → Run σ (Outcome (Node Unit))) :
    Expr → Cursor → MatchMode → Run σ (Outcome (Node Unit))
  | .terminal t, c, _ =>
    match t.accept? c with
    | some stop => leaf w t.label c stop
    | none => return .failed c.offset
  | .sequence es, c, mode => do
    match ← attemptEach w call es c mode with
    | .matched children stop => branch w .sequence c children stop
    | .failed offset => return .failed offset
  | .choice es, c, mode => do
    match ← attemptFirst w call es c mode c.offset with
    | .matched n stop => branch w .choice c [n] stop
    | .failed offset => return .failed offset
  | .repeated e bounds, c, mode => do
    match ← iterate (attempt w call e · mode) bounds 0 c with
    | .matched children stop => branch w (.repeated bounds) c children stop
    | .failed offset => return .failed offset
  | .rule id, c, mode => call id c mode

/-- Match each expression where the one before it ended. The first failure is the failure. -/
def attemptEach (w : Watch σ) (call : RuleId → Cursor → MatchMode → Run σ (Outcome (Node Unit))) :
    List Expr → Cursor → MatchMode → Run σ (Outcome (List (Node Unit)))
  | [], c, _ => return .matched [] c
  | e :: es, c, mode => do
    match ← attempt w call e c mode with
    | .failed offset => return .failed offset
    | .matched n stop =>
      match ← attemptEach w call es stop mode with
      | .failed offset => return .failed offset
      | .matched ns stop => return .matched (n :: ns) stop

/-- Match the first of the expressions that matches. When all fail, the failure is the rightmost
of theirs and `furthest`. -/
def attemptFirst (w : Watch σ)
    (call : RuleId → Cursor → MatchMode → Run σ (Outcome (Node Unit))) :
    List Expr → Cursor → MatchMode → (furthest : Nat) → Run σ (Outcome (Node Unit))
  | [], _, _, furthest => return .failed furthest
  | e :: es, c, mode, furthest => do
    match ← attempt w call e c mode with
    | .matched n stop => return .matched n stop
    | .failed offset =>
      unless es.isEmpty do giveUp w offset c.offset
      attemptFirst w call es c mode (max furthest offset)

end

/-! ### Rules -/

/-- Match a rule whose calls may nest at most `limit` deep. -/
def callRule (g : Grammar) (w : Watch σ) :
    (limit : Nat) → RuleId → Cursor → MatchMode → Run σ (Outcome (Node Unit))
  | 0, _, _, _ => throw .leftRecursion
  | limit + 1, id, c, mode => do
    let r ← g.rule id
    enter w r.name c.offset
    match ← attemptFirst w (callRule g w limit) r.alternatives c mode c.offset with
    | .matched n stop =>
      leave w r.name stop.offset true
      branch w (.rule r.name) c [n] stop
    | .failed offset =>
      leave w r.name offset false
      return .failed offset

end Engine

namespace Grammar

variable {σ : Type}

/-- How deep calls of rules can nest without a call inside a call of the same rule at the same
position: there are this many pairs of a rule and a position from the cursor on. -/
def depthLimit (g : Grammar) (c : Cursor) : Nat := g.rules.size * (c.rest.length + 1)

/-- Match a rule at a cursor. -/
def matchRule (g : Grammar) (w : Watch σ) (id : RuleId) (c : Cursor) (mode : MatchMode) :
    Run σ (Outcome (Node Unit)) :=
  Engine.callRule g w (g.depthLimit c) id c mode

end Grammar

end PegGrammar
