import PegGrammar.Proofs.Closed
import PegGrammar.Proofs.Runs

/-!
# The engine follows the relation

At every depth the engine and `Runs` agree, in the strongest sense there is: either the relation
has exactly one course and the engine takes it, from whatever monitor it starts, or the relation
has none and the engine reports left recursion. `Computes` is that sense.

The proof goes along the definition of the engine, one lemma for each of its functions. Nothing
after this module opens the engine again.

## Main results

* `computes_callRule` — a call of a declared rule, at each depth
* `Runs.unique` — a match has at most one course
* `callRule_run_of_runs`, `callRule_run_of_not_runs` — the two halves, for use
-/

namespace PegGrammar.Engine

variable {σ α : Type} {w : Watch σ} {g : Grammar} {n : Nat}

/-- `x` computes `R` when it finds the only course that `R` allows, and reports left recursion
when `R` allows none. -/
inductive Computes (w : Watch σ) (x : Run σ α) (R : List Step → α → Prop) : Prop
  /-- There is exactly one course, and it is taken from every monitor. -/
  | returns (steps : List Step) (a : α) (only : ∀ s b, R s b ↔ s = steps ∧ b = a)
      (run : ∀ m, x.run m = .ok (a, m.replay w steps))
  /-- There is no course, and no monitor changes that. -/
  | diverges (none : ∀ s b, ¬ R s b) (run : ∀ m, x.run m = .error .leftRecursion)

/-! ### Reports

What each small operation of the engine does to a monitor is one step. -/

/-- Opening a rule counts the attempt at the depth that it has just reached, so that the counters
and the event are a single step for the monitor. -/
theorem enter_run (w : Watch σ) (name : String) (position : Nat) (m : Monitor σ) :
    (enter w name position).run m = .ok ((), m.replay w [.told (.enter name position)]) := by
  obtain ⟨handle, counting⟩ := w
  cases counting <;> rfl

theorem leave_run (w : Watch σ) (name : String) (position : Nat) (success : Bool)
    (m : Monitor σ) :
    (leave w name position success).run m
      = .ok ((), m.replay w [.told (.exit name position success)]) := by
  rfl

theorem giveUp_run (w : Watch σ) (failure restart : Nat) (m : Monitor σ) :
    (giveUp w failure restart).run m
      = .ok ((), m.replay w [.told (.backtrack failure restart)]) := by
  obtain ⟨handle, counting⟩ := w
  cases counting <;> rfl

theorem leaf_run (w : Watch σ) (label : Label) (start stop : Cursor) (m : Monitor σ) :
    (leaf w label start stop).run m
      = .ok (.matched (.leaf label (Span.of start.offset stop.offset) ()) stop,
          m.replay w [.made]) := by
  obtain ⟨handle, counting⟩ := w
  cases counting <;> rfl

/-- Making a node has no event. Only the counters can tell, and only if they are kept. -/
theorem branch_run (w : Watch σ) (label : Label) (start : Cursor) (children : List (Node Unit))
    (stop : Cursor) (m : Monitor σ) :
    (branch w label start children stop).run m
      = .ok (.matched (.branch label (Span.of start.offset stop.offset) children) stop,
          m.replay w [.made]) := by
  obtain ⟨handle, counting⟩ := w
  cases counting <;> rfl

/-! ### Putting computations together -/

namespace Computes

variable {β : Type} {x : Run σ α} {R Q : List Step → α → Prop}

/-- What is computed is known by its courses, so that it can be described in any equivalent way. -/
theorem congr (h : Computes w x R) (hRQ : ∀ s a, Q s a ↔ R s a) : Computes w x Q := by
  cases h with
  | returns steps a only run => exact .returns steps a (fun s b => (hRQ s b).trans (only s b)) run
  | diverges none run => exact .diverges (fun s b hq => none s b ((hRQ s b).mp hq)) run

/-- A computation that always takes the same steps and returns the same value, from every monitor,
has those as its only course. -/
theorem of_run {steps : List Step} {a : α} (h : ∀ m, x.run m = .ok (a, m.replay w steps)) :
    Computes w x fun s b => s = steps ∧ b = a :=
  .returns steps a (fun _ _ => Iff.rfl) h

theorem pure (a : α) : Computes w (Pure.pure a) fun s b => s = [] ∧ b = a :=
  of_run fun _ => rfl

/-- **One computation after another.** The courses are those of the first, each continued by one of
the second, and there is none if either diverges. All lemmas about the engine are put together with
this one. -/
theorem bind {f : α → Run σ β} {Q : α → List Step → β → Prop} (hx : Computes w x R)
    (hf : ∀ a, Computes w (f a) (Q a)) :
    Computes w (x >>= f)
      fun s b => ∃ first a more, R first a ∧ Q a more b ∧ s = first ++ more := by
  cases hx with
  | returns first a only run =>
    -- `x` has one course, so the composite has the courses of `f a`, each after that of `x`
    have hcomp : ∀ s b, (∃ first' a' more, R first' a' ∧ Q a' more b ∧ s = first' ++ more) ↔
        ∃ more, Q a more b ∧ s = first ++ more := by
      intro s b
      constructor
      · rintro ⟨first', a', more, hR, hQ, rfl⟩
        obtain ⟨rfl, rfl⟩ := (only first' a').mp hR
        exact ⟨more, hQ, rfl⟩
      · rintro ⟨more, hQ, rfl⟩
        exact ⟨first, a, more, (only first a).mpr ⟨rfl, rfl⟩, hQ, rfl⟩
    have hrun : ∀ m, (x >>= f).run m = (f a).run (m.replay w first) := by
      intro m
      rw [StateT.run_bind, run]
      rfl
    cases hf a with
    | returns more b only' run' =>
      refine .returns (first ++ more) b (fun s b' => ?_) fun m => ?_
      · rw [hcomp]
        constructor
        · rintro ⟨more', hQ, rfl⟩
          obtain ⟨rfl, rfl⟩ := (only' more' b').mp hQ
          exact ⟨rfl, rfl⟩
        · rintro ⟨rfl, rfl⟩
          exact ⟨more, (only' more b').mpr ⟨rfl, rfl⟩, rfl⟩
      · rw [hrun, run', Monitor.replay_append]
    | diverges none run' =>
      refine .diverges (fun s b h => ?_) fun m => by rw [hrun, run']
      obtain ⟨more, hQ, _⟩ := (hcomp s b).mp h
      exact none more b hQ
  | diverges none run =>
    refine .diverges (fun s b h => ?_) fun m => ?_
    · obtain ⟨first, a, _, hR, _⟩ := h
      exact none first a hR
    · rw [StateT.run_bind, run]
      rfl

theorem map (f : α → β) (hx : Computes w x R) :
    Computes w (f <$> x) fun s b => ∃ a, R s a ∧ b = f a := by
  rw [← bind_pure_comp]
  refine (hx.bind fun a => pure (f a)).congr fun s b => ?_
  constructor
  · rintro ⟨a, hR, rfl⟩
    exact ⟨s, a, [], hR, ⟨rfl, rfl⟩, by rw [List.append_nil]⟩
  · rintro ⟨first, a, more, hR, ⟨rfl, rfl⟩, rfl⟩
    exact ⟨a, by rwa [List.append_nil], rfl⟩

/-- Framing the steps changes nothing that a monitor sees. -/
theorem frame {x : Run σ (Outcome (Node Unit))} {R : List Step → Outcome (Node Unit) → Prop}
    (hx : Computes w x R) (e : Expr) (c : Cursor) :
    Computes w x fun s o => ∃ body, R body o ∧ s = framed e c body o := by
  cases hx with
  | returns body o only run =>
    refine .returns (framed e c body o) o (fun s o' => ?_) fun m => ?_
    · constructor
      · rintro ⟨body', hR, rfl⟩
        obtain ⟨rfl, rfl⟩ := (only body' o').mp hR
        exact ⟨rfl, rfl⟩
      · rintro ⟨rfl, rfl⟩
        exact ⟨body, (only body o').mpr ⟨rfl, rfl⟩, rfl⟩
    · rw [run, Monitor.replay_framed]
  | diverges none run =>
    refine .diverges (fun s o h => ?_) run
    obtain ⟨body, hR, _⟩ := h
    exact none body o hR

end Computes

/-! ### Combinations

A combination encloses a match of its parts in a branch and passes a failure on. -/

/-- What the engine does with the outcome of the parts of a combination. -/
def wrap (w : Watch σ) (label : Label) (c : Cursor) :
    Outcome (List (Node Unit)) → Run σ (Outcome (Node Unit))
  | .matched children stop => branch w label c children stop
  | .failed offset => return .failed offset

theorem wrap_run (w : Watch σ) (label : Label) (c : Cursor) (parts : Outcome (List (Node Unit)))
    (m : Monitor σ) :
    (wrap w label c parts).run m
      = .ok (parts.enclose label c, m.replay w (nodeSteps parts)) := by
  cases parts with
  | matched children stop => exact branch_run w label c children stop m
  | failed offset => rfl

/-- A combination is a computation of its parts with a branch around what they yield. In between,
the steps are framed by those of the attempt. -/
theorem Computes.enclose {x : Run σ α} {R : List Step → α → Prop} (hx : Computes w x R)
    (parts : α → Outcome (List (Node Unit))) (label : Label) (e : Expr) (c : Cursor) :
    Computes w (x >>= fun a => wrap w label c (parts a))
      fun s o => ∃ body a, R body a ∧ o = (parts a).enclose label c ∧
        s = framed e c (body ++ nodeSteps (parts a)) o := by
  refine ((hx.bind fun a => of_run (wrap_run w label c (parts a))).frame e c).congr fun s o => ?_
  constructor
  · rintro ⟨body, a, hR, rfl, rfl⟩
    exact ⟨_, ⟨body, a, _, hR, ⟨rfl, rfl⟩, rfl⟩, rfl⟩
  · rintro ⟨_, ⟨body, a, _, hR, ⟨rfl, rfl⟩, rfl⟩, rfl⟩
    exact ⟨body, a, hR, rfl, rfl⟩

theorem nodeSteps_map {β : Type} (f : α → β) (o : Outcome α) :
    nodeSteps (o.map f) = nodeSteps o := by
  cases o <;> rfl

section Equations

variable (w : Watch σ) (call : RuleId → Cursor → MatchMode → Run σ (Outcome (Node Unit)))
  (mode : MatchMode)

/-- The engine takes outcomes apart by cases where the relation maps and encloses them. These
equations say that both are the same, form by form. -/
theorem attempt_sequence (es : List Expr) (c : Cursor) :
    attempt w call (.sequence es) c mode = attemptEach w call es c mode >>= wrap w .sequence c := by
  rw [attempt]
  exact bind_congr fun parts => by cases parts <;> rfl

theorem attempt_choice (es : List Expr) (c : Cursor) :
    attempt w call (.choice es) c mode
      = attemptFirst w call es c mode c.offset >>=
          fun part => wrap w .choice c (part.map fun node => [node]) := by
  rw [attempt]
  exact bind_congr fun part => by cases part <;> rfl

theorem attempt_repeated (e : Expr) (bounds : Bounds) (c : Cursor) :
    attempt w call (.repeated e bounds) c mode
      = iterate (attempt w call e · mode) bounds 0 c >>= wrap w (.repeated bounds) c := by
  rw [attempt]
  exact bind_congr fun parts => by cases parts <;> rfl

theorem attemptEach_cons (e : Expr) (es : List Expr) (c : Cursor) :
    attemptEach w call (e :: es) c mode
      = attempt w call e c mode >>= fun o =>
          match o with
          | .matched node stop => Outcome.map (node :: ·) <$> attemptEach w call es stop mode
          | .failed offset => pure (.failed offset) := by
  rw [attemptEach]
  refine bind_congr fun o => ?_
  cases o with
  | matched node stop =>
    dsimp only
    rw [← bind_pure_comp]
    exact bind_congr fun others => by cases others <;> rfl
  | failed offset => rfl

/-- Give up an alternative, if there is another one. -/
def giveUpFor (rest : List Expr) (failure restart : Nat) : Run σ Unit :=
  unless rest.isEmpty do giveUp w failure restart

theorem giveUpFor_run (rest : List Expr) (failure restart : Nat) (m : Monitor σ) :
    (giveUpFor w rest failure restart).run m
      = .ok ((), m.replay w (giveUpSteps rest failure restart)) := by
  cases rest with
  | nil => rfl
  | cons e es => exact giveUp_run w failure restart m

theorem attemptFirst_cons (e : Expr) (es : List Expr) (c : Cursor) (furthest : Nat) :
    attemptFirst w call (e :: es) c mode furthest
      = attempt w call e c mode >>= fun o =>
          match o with
          | .matched node stop => pure (.matched node stop)
          | .failed offset =>
            giveUpFor w es offset c.offset >>= fun _ =>
              attemptFirst w call es c mode (max furthest offset) := by
  rw [attemptFirst]
  refine bind_congr fun o => ?_
  cases o with
  | matched node stop => rfl
  | failed offset =>
    simp only [giveUpFor]
    split <;> rfl

theorem iterate_eq (step : Cursor → Run σ (Outcome (Node Unit))) (bounds : Bounds) (count : Nat)
    (c : Cursor) (hb : bounds.allowsMore count = true) :
    iterate step bounds count c
      = step c >>= fun o =>
          match o with
          | .matched node stop =>
            if stop.rest.length < c.rest.length then
              Outcome.map (node :: ·) <$> iterate step bounds (count + 1) stop
            else pure (.matched [node] stop)
          | .failed offset =>
            pure (if count < bounds.min then .failed offset else .matched [] c) := by
  rw [iterate, if_pos hb]
  refine bind_congr fun o => ?_
  cases o with
  | matched node stop =>
    dsimp only
    split
    · rw [← bind_pure_comp]
      exact bind_congr fun others => by cases others <;> rfl
    · rfl
  | failed offset =>
    dsimp only
    split <;> rfl

/-- A call of a declared rule, one level further down, as a chain of four computations: open the
rule, try its alternatives, close it, and make its node. -/
theorem callRule_succ (g : Grammar) (limit : Nat) (id : RuleId) (r : Rule) (c : Cursor)
    (hr : g.rule? id = some r) :
    callRule g w (limit + 1) id c mode
      = enter w r.name c.offset >>= fun _ =>
          attemptFirst w (callRule g w limit) r.alternatives c mode c.offset >>= fun part =>
            leave w r.name part.position part.isMatched >>= fun _ =>
              wrap w (.rule r.name) c (part.map fun node => [node]) := by
  rw [callRule, Grammar.rule_eq_ok hr,
    show (liftM (Except.ok r : Except Fault Rule) : Run σ Rule) = pure r from rfl, pure_bind]
  refine bind_congr fun _ => bind_congr fun part => ?_
  cases part <;> rfl

end Equations

/-! ### One lemma for each function

`call` stands for calls of rules one level further down. -/

section Functions

variable {call : RuleId → Cursor → MatchMode → Run σ (Outcome (Node Unit))} {mode : MatchMode}
  {e : Expr} {es : List Expr}

theorem computes_terminal (t : Terminal) (c : Cursor) :
    Computes w (attempt w call (.terminal t) c mode) (Runs g n (.terminal t) c) := by
  rw [attempt]
  cases h : t.accept? c with
  | some stop =>
    refine ((Computes.of_run (leaf_run w t.label c stop)).frame (.terminal t) c).congr fun s o => ?_
    simp only [runs_terminal_iff, h, Option.some.injEq, reduceCtorEq, false_and, or_false]
    constructor
    · rintro ⟨_, rfl, rfl, rfl⟩
      exact ⟨_, ⟨rfl, rfl⟩, rfl⟩
    · rintro ⟨_, ⟨rfl, rfl⟩, rfl⟩
      exact ⟨stop, rfl, rfl, rfl⟩
  | none =>
    refine ((Computes.pure (.failed c.offset)).frame (.terminal t) c).congr fun s o => ?_
    simp only [runs_terminal_iff, h, reduceCtorEq, false_and, exists_false, false_or, true_and]
    constructor
    · rintro ⟨rfl, rfl⟩
      exact ⟨_, ⟨rfl, rfl⟩, rfl⟩
    · rintro ⟨_, ⟨rfl, rfl⟩, rfl⟩
      exact ⟨rfl, rfl⟩

/-- One more part in front of a sequence. The mode is the same for all of them, and none of their
courses depends on it. -/
theorem computes_attemptEach_cons
    (he : ∀ c, Computes w (attempt w call e c mode) (Runs g n e c))
    (hes : ∀ c, Computes w (attemptEach w call es c mode) (RunsEach g n es c)) (c : Cursor) :
    Computes w (attemptEach w call (e :: es) c mode) (RunsEach g n (e :: es) c) := by
  rw [attemptEach_cons]
  refine ((he c).bind (Q := fun o more parts => match o with
    | .matched node stop => ∃ others, RunsEach g n es stop more others ∧
        parts = others.map (node :: ·)
    | .failed offset => more = [] ∧ parts = .failed offset) fun o => ?_).congr fun s parts => ?_
  · cases o with
    | matched node stop => exact (hes stop).map _
    | failed offset => exact .pure _
  · rw [runsEach_cons_iff]
    constructor
    · rintro (⟨first, node, stop, more, others, h, hs, rfl, rfl⟩ | ⟨offset, h, rfl⟩)
      · exact ⟨first, _, more, h, ⟨others, hs, rfl⟩, rfl⟩
      · exact ⟨s, _, [], h, ⟨rfl, rfl⟩, by rw [List.append_nil]⟩
    · rintro ⟨first, ⟨node, stop⟩ | offset, more, h, hQ, rfl⟩
      · obtain ⟨others, hs, rfl⟩ := hQ
        exact Or.inl ⟨first, node, stop, more, others, h, hs, rfl, rfl⟩
      · obtain ⟨rfl, rfl⟩ := hQ
        exact Or.inr ⟨offset, by rwa [List.append_nil], rfl⟩

theorem computes_attemptFirst_cons
    (he : ∀ c, Computes w (attempt w call e c mode) (Runs g n e c))
    (hes : ∀ c furthest,
      Computes w (attemptFirst w call es c mode furthest) (RunsFirst g n es c furthest))
    (c : Cursor) (furthest : Nat) :
    Computes w (attemptFirst w call (e :: es) c mode furthest)
      (RunsFirst g n (e :: es) c furthest) := by
  rw [attemptFirst_cons]
  refine ((he c).bind (Q := fun o more result => match o with
    | .matched node stop => more = [] ∧ result = .matched node stop
    | .failed offset => ∃ rest, RunsFirst g n es c (max furthest offset) rest result ∧
        more = giveUpSteps es offset c.offset ++ rest) fun o => ?_).congr fun s result => ?_
  · cases o with
    | matched node stop => exact .pure _
    | failed offset =>
      refine ((Computes.of_run (giveUpFor_run w es offset c.offset)).bind fun _ =>
        hes c (max furthest offset)).congr fun more result => ?_
      constructor
      · rintro ⟨rest, h, rfl⟩
        exact ⟨_, (), rest, ⟨rfl, rfl⟩, h, rfl⟩
      · rintro ⟨_, _, rest, ⟨rfl, rfl⟩, h, rfl⟩
        exact ⟨rest, h, rfl⟩
  · rw [runsFirst_cons_iff]
    constructor
    · rintro (⟨node, stop, h, rfl⟩ | ⟨first, offset, rest, h, hs, rfl⟩)
      · exact ⟨s, _, [], h, ⟨rfl, rfl⟩, by rw [List.append_nil]⟩
      · exact ⟨first, _, _, h, ⟨rest, hs, rfl⟩, List.append_assoc _ _ _⟩
    · rintro ⟨first, ⟨node, stop⟩ | offset, more, h, hQ, rfl⟩
      · obtain ⟨rfl, rfl⟩ := hQ
        exact Or.inl ⟨node, stop, by rwa [List.append_nil], rfl⟩
      · obtain ⟨rest, hs, rfl⟩ := hQ
        exact Or.inr ⟨first, offset, rest, h, hs, (List.append_assoc _ _ _).symm⟩

/-- By induction on the length of the text: a round that is followed by another consumes. -/
theorem computes_iterate (he : ∀ c, Computes w (attempt w call e c mode) (Runs g n e c))
    (bounds : Bounds) (count : Nat) (c : Cursor) :
    Computes w (iterate (attempt w call e · mode) bounds count c)
      (RunsMany g n e bounds count c) := by
  induction hlen : c.rest.length using Nat.strongRecOn generalizing count c with
  | _ len ih =>
  cases hb : bounds.allowsMore count with
  | false =>
    rw [iterate, hb]
    exact (Computes.pure _).congr fun s o => runsMany_full_iff hb
  | true =>
    rw [iterate_eq _ _ _ _ hb]
    refine ((he c).bind (Q := fun o more parts => match o with
      | .matched node stop =>
        if stop.rest.length < c.rest.length then
          ∃ others, RunsMany g n e bounds (count + 1) stop more others ∧
            parts = others.map (node :: ·)
        else more = [] ∧ parts = .matched [node] stop
      | .failed offset =>
        more = [] ∧ parts = if count < bounds.min then .failed offset else .matched [] c)
      fun o => ?_).congr fun s parts => ?_
    · cases o with
      | matched node stop =>
        dsimp only
        split
        next h => exact (ih _ (hlen ▸ h) (count + 1) stop rfl).map _
        next => exact .pure _
      | failed offset => exact .pure _
    · rw [runsMany_more_iff hb]
      constructor
      · rintro (⟨offset, h, ⟨hc, rfl⟩ | ⟨hc, rfl⟩⟩ | ⟨node, stop, h, hs, rfl⟩ |
          ⟨round, node, stop, more, others, h, hs, hm, rfl, rfl⟩)
        · exact ⟨s, _, [], h, ⟨rfl, by rw [if_neg (by omega)]⟩, by rw [List.append_nil]⟩
        · exact ⟨s, _, [], h, ⟨rfl, by rw [if_pos hc]⟩, by rw [List.append_nil]⟩
        · exact ⟨s, _, [], h, by simp only [if_neg hs, and_self], by rw [List.append_nil]⟩
        · exact ⟨round, _, more, h, by simp only [if_pos hs]; exact ⟨others, hm, rfl⟩, rfl⟩
      · rintro ⟨round, ⟨node, stop⟩ | offset, more, h, hQ, rfl⟩
        · dsimp only at hQ
          split at hQ
          next hs =>
            obtain ⟨others, hm, rfl⟩ := hQ
            exact Or.inr (Or.inr ⟨round, node, stop, more, others, h, hs, hm, rfl, rfl⟩)
          next hs =>
            obtain ⟨rfl, rfl⟩ := hQ
            exact Or.inr (Or.inl ⟨node, stop, by rwa [List.append_nil], hs, rfl⟩)
        · obtain ⟨rfl, rfl⟩ := hQ
          rw [List.append_nil]
          refine Or.inl ⟨offset, h, ?_⟩
          split
          next hc => exact Or.inr ⟨hc, rfl⟩
          next hc => exact Or.inl ⟨Nat.le_of_not_lt hc, rfl⟩

mutual

/-- **Expressions follow the relation** if the rules they call do. Both modes do so with the same
courses: the mode is passed on to the calls, and the relation has no place for it. -/
theorem computes_attempt : ∀ (e : Expr),
    (∀ id ∈ e.refs, ∀ c, Computes w (call id c mode) (Runs g n (.rule id) c)) →
    ∀ c, Computes w (attempt w call e c mode) (Runs g n e c)
  | .terminal t, _, c => computes_terminal t c
  | .sequence es, hcall, c => by
    rw [attempt_sequence]
    have hparts := computes_attemptEach es hcall c
    exact (hparts.enclose id .sequence (.sequence es) c).congr fun s o => runs_sequence_iff
  | .choice es, hcall, c => by
    rw [attempt_choice]
    have hpart := computes_attemptFirst es hcall c c.offset
    refine (hpart.enclose _ .choice (.choice es) c).congr fun s o => ?_
    simp only [runs_choice_iff, nodeSteps_map]
  | .repeated e bounds, hcall, c => by
    rw [attempt_repeated]
    have hparts := computes_iterate (computes_attempt e hcall) bounds 0 c
    exact (hparts.enclose id (.repeated bounds) (.repeated e bounds) c).congr
      fun s o => runs_repeated_iff
  | .rule id, hcall, c => by
    rw [attempt]
    exact hcall id (List.mem_singleton.mpr rfl) c

theorem computes_attemptEach : ∀ (es : List Expr),
    (∀ id ∈ Expr.refsAll es, ∀ c, Computes w (call id c mode) (Runs g n (.rule id) c)) →
    ∀ c, Computes w (attemptEach w call es c mode) (RunsEach g n es c)
  | [], _, c => by
    rw [attemptEach]
    exact (Computes.pure _).congr fun s parts => runsEach_nil_iff
  | e :: es, hcall, c =>
    computes_attemptEach_cons
      (computes_attempt e fun id hid => hcall id (List.mem_append_left _ hid))
      (computes_attemptEach es fun id hid => hcall id (List.mem_append_right _ hid)) c

theorem computes_attemptFirst : ∀ (es : List Expr),
    (∀ id ∈ Expr.refsAll es, ∀ c, Computes w (call id c mode) (Runs g n (.rule id) c)) →
    ∀ c furthest, Computes w (attemptFirst w call es c mode furthest) (RunsFirst g n es c furthest)
  | [], _, c, furthest => by
    rw [attemptFirst]
    exact (Computes.pure _).congr fun s o => runsFirst_nil_iff
  | e :: es, hcall, c, furthest =>
    computes_attemptFirst_cons
      (computes_attempt e fun id hid => hcall id (List.mem_append_left _ hid))
      (computes_attemptFirst es fun id hid => hcall id (List.mem_append_right _ hid)) c furthest

end

end Functions

/-! ### Rules -/

/-- **The engine follows the relation.** At every depth, a call of a declared rule takes the only
course there is, or reports left recursion when there is none. -/
theorem computes_callRule (w : Watch σ) (n : Nat) {id : RuleId} (hid : g.Declares id)
    (c : Cursor) (mode : MatchMode) :
    Computes w (callRule g w n id c mode) (Runs g n (.rule id) c) := by
  induction n generalizing id c with
  | zero => exact .diverges (fun _ _ => not_runs_rule_zero) fun _ => rfl
  | succ n ih =>
    obtain ⟨r, hr⟩ := Grammar.declares_iff_exists_rule?.mp hid
    have hfirst : Computes w (attemptFirst w (callRule g w n) r.alternatives c mode c.offset)
        (RunsFirst g n r.alternatives c c.offset) :=
      computes_attemptFirst _ (fun s hs c => ih (Grammar.declares_of_mem_refsAll hr s hs) c) c _
    have hleave : ∀ part : Outcome (Node Unit), Computes w
        (leave w r.name part.position part.isMatched >>= fun _ =>
          wrap w (.rule r.name) c (part.map fun node => [node]))
        fun s o => o = (part.map fun node => [node]).enclose (.rule r.name) c ∧
          s = .told (.exit r.name part.position part.isMatched) :: nodeSteps part := by
      intro part
      refine ((Computes.of_run (leave_run w _ _ _)).bind fun _ =>
        Computes.of_run (wrap_run w _ c _)).congr fun s o => ?_
      rw [nodeSteps_map]
      constructor
      · rintro ⟨rfl, rfl⟩
        exact ⟨_, (), _, ⟨rfl, rfl⟩, ⟨rfl, rfl⟩, rfl⟩
      · rintro ⟨_, _, _, ⟨rfl, rfl⟩, ⟨rfl, rfl⟩, rfl⟩
        exact ⟨rfl, rfl⟩
    rw [callRule_succ w mode g n id r c hr]
    refine (((Computes.of_run (enter_run w _ _)).bind fun _ =>
      hfirst.bind hleave).frame (.rule id) c).congr fun s o => ?_
    rw [runs_rule_iff]
    constructor
    · rintro ⟨r', body, part, hr', h, rfl, rfl⟩
      obtain rfl : r = r' := Option.some.inj (hr.symm.trans hr')
      exact ⟨_, ⟨_, (), _, ⟨rfl, rfl⟩, ⟨body, part, _, h, ⟨rfl, rfl⟩, rfl⟩, rfl⟩, rfl⟩
    · rintro ⟨_, ⟨_, _, _, ⟨rfl, rfl⟩, ⟨body, part, _, h, ⟨rfl, rfl⟩, rfl⟩, rfl⟩, rfl⟩
      exact ⟨r, body, part, hr, h, rfl, rfl⟩

variable {m k : Nat} {id : RuleId} {c : Cursor} {steps steps' : List Step}
  {o o' : Outcome (Node Unit)}

/-- Only declared rules can be called. -/
theorem Runs.declares (h : Runs g n (.rule id) c steps o) : g.Declares id := by
  cases h with
  | rule hr _ _ => exact Grammar.declares_of_rule? hr

/-- A call of any rule, where one that is not declared never returns. No course calls such a rule,
so the relation cannot tell that from the fault that the engine reports. -/
def callAny (g : Grammar) (w : Watch σ) (n : Nat) (id : RuleId) (c : Cursor) (mode : MatchMode) :
    Run σ (Outcome (Node Unit)) :=
  if g.Declares id then callRule g w n id c mode else throw .leftRecursion

/-- Calls of all rules follow the relation, the undeclared ones included: none of those ever
returns. -/
theorem computes_callAny (w : Watch σ) (n : Nat) (id : RuleId) (c : Cursor) (mode : MatchMode) :
    Computes w (callAny g w n id c mode) (Runs g n (.rule id) c) := by
  rw [callAny]
  split
  next hid => exact computes_callRule w n hid c mode
  next hid => exact .diverges (fun _ _ h => hid h.declares) fun _ => rfl

/-- **A match has at most one course**, whatever depth it is derived at. -/
theorem Runs.unique {e : Expr} (h : Runs g n e c steps o) (h' : Runs g k e c steps' o') :
    steps' = steps ∧ o' = o := by
  have hmax := h.mono (Nat.le_max_left n k)
  have hmax' := h'.mono (Nat.le_max_right n k)
  let w : Watch Unit := ⟨fun _ _ => (), false⟩
  cases computes_attempt e (fun id _ c => computes_callAny w (max n k) id c .syntactic) c with
  | returns s a only _ =>
    obtain ⟨rfl, rfl⟩ := (only _ _).mp hmax
    exact (only _ _).mp hmax'
  | diverges none _ => exact absurd hmax (none _ _)

/-- The half for matches that have a course: a call takes it, for every observer and in either
mode. -/
theorem callRule_run_of_runs (h : Runs g n (.rule id) c steps o) (w : Watch σ) (mode : MatchMode)
    (m : Monitor σ) : (callRule g w n id c mode).run m = .ok (o, m.replay w steps) := by
  cases computes_callRule w n h.declares c mode with
  | returns s a only run =>
    obtain ⟨rfl, rfl⟩ := (only _ _).mp h
    exact run m
  | diverges none _ => exact absurd h (none _ _)

/-- The other half. A call of a declared rule that has no course at this depth ends with the fault,
and there is no third possibility. -/
theorem callRule_run_of_not_runs (hid : g.Declares id)
    (h : ∀ steps o, ¬ Runs g n (.rule id) c steps o) (w : Watch σ) (mode : MatchMode)
    (m : Monitor σ) : (callRule g w n id c mode).run m = .error .leftRecursion := by
  cases computes_callRule w n hid c mode with
  | returns s a only _ => exact absurd ((only s a).mpr ⟨rfl, rfl⟩) (h s a)
  | diverges _ run => exact run m

end PegGrammar.Engine
