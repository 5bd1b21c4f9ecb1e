import PegGrammar.Proofs.Tiling

/-!
# Rule nodes can be replayed

A node that stands somewhere in the tree of a match was yielded deep inside choices that gave up
other alternatives and repetitions that threw rounds away. None of that has left a trace in it: a
fresh attempt of its rule at its start, in either mode, returns the very same node and stops where
it stops.

The argument is short because the course of a match keeps a record of everything that was
attempted. Each node of the tree is on record as the outcome of an attempt (`Covers` with `Made`),
each attempt on record has its outcome by itself (`Runs.soundSteps`), and only an attempt of a rule
yields a node with the label of a rule.

## Main definitions

* `Engine.Returns` — what an attempt of an expression by itself returns

## Main results

* `Engine.Runs.exists_rule_of_label` — who yields the nodes of rules
* `Engine.RunsFirst.exists_taken` — the alternative that is taken is the first that matches
* `rule_nodes_replay` — rule nodes can be replayed
-/

namespace PegGrammar

namespace Engine

variable {g : Grammar} {n : Nat} {e : Expr} {c stop : Cursor} {steps : List Step}

/-! ### Attempts of their own -/

/-- An attempt of the expression by itself at the cursor returns the outcome, whoever watches and in
either mode, if calls may nest deep enough. -/
def Returns (g : Grammar) (e : Expr) (c : Cursor) (o : Outcome (Node Unit)) : Prop :=
  ∃ limit, ∀ deeper, limit ≤ deeper → ∀ (σ : Type) (w : Watch σ) (mode : MatchMode) (m : Monitor σ),
    ∃ m', (attempt w (callRule g w deeper) e c mode).run m = .ok (o, m')

theorem Runs.returns {o : Outcome (Node Unit)} (h : Runs g n e c steps o)
    (he : ∀ id ∈ e.refs, g.Declares id) : Returns g e c o := by
  refine ⟨n, fun deeper hn σ w mode m => ?_⟩
  have hrun := h.mono hn
  cases computes_attempt e (fun id hid c => computes_callRule w deeper (he id hid) c mode) c with
  | returns steps' o' only run =>
    obtain ⟨rfl, rfl⟩ := (only _ _).mp hrun
    exact ⟨_, run m⟩
  | diverges none _ => exact absurd hrun (none _ _)

/-! ### The nodes of rules -/

/-- A node with the label of a rule is yielded by a call of a rule of that name. -/
theorem Runs.exists_rule_of_label {node : Node Unit} {name : String}
    (h : Runs g n e c steps (.matched node stop)) (hlabel : node.label = .rule name) :
    ∃ id r, e = .rule id ∧ g.rule? id = some r ∧ r.name = name := by
  generalize ho : Outcome.matched node stop = o at h
  cases h with
  | @accepted _ t _ _ _ _ hleaf =>
    cases ho.trans hleaf
    cases t <;> cases hlabel
  | rejected => cases ho
  | @sequence _ _ _ _ parts _ _ hbranch =>
    cases parts <;> cases ho.trans hbranch
    cases hlabel
  | @choice _ _ _ _ part _ _ hbranch =>
    cases part <;> cases ho.trans hbranch
    cases hlabel
  | @repeated _ _ _ _ _ parts _ _ hbranch =>
    cases parts <;> cases ho.trans hbranch
    cases hlabel
  | @rule _ id r _ _ part _ hr _ hbranch =>
    cases part <;> cases ho.trans hbranch
    cases hlabel
    exact ⟨id, r, rfl, hr, rfl⟩

/-- **The alternative that is taken is the first that matches.** -/
theorem RunsFirst.exists_taken {es : List Expr} {furthest : Nat} {node : Node Unit}
    (h : RunsFirst g n es c furthest steps (.matched node stop)) :
    ∃ before e after, es = before ++ e :: after ∧
      (∀ b ∈ before, ∃ tried offset, Runs g n b c tried (.failed offset)) ∧
      ∃ taken, Runs g n e c taken (.matched node stop) := by
  induction es generalizing furthest steps with
  | nil =>
    obtain ⟨_, ho⟩ := runsFirst_nil_iff.mp h
    cases ho
  | cons e es ih =>
    rcases runsFirst_cons_iff.mp h with ⟨_, _, hrun, ⟨⟩⟩ | ⟨first, offset, more, hrun, hothers, -⟩
    · exact ⟨[], e, es, rfl, fun b hb => absurd hb List.not_mem_nil, steps, hrun⟩
    · obtain ⟨before, taken, after, rfl, hbefore, htaken⟩ := ih hothers
      refine ⟨e :: before, taken, after, rfl, ?_, htaken⟩
      exact List.forall_mem_cons.mpr ⟨⟨first, offset, hrun⟩, hbefore⟩

/-- A match of a rule, opened: its node has one child, which is what the first alternative that
matches returns by itself. -/
theorem Runs.exists_first_alternative {id : RuleId} {r : Rule} {node : Node Unit}
    (hr : g.rule? id = some r) (h : Runs g n (.rule id) c steps (.matched node stop)) :
    ∃ before e after child, r.alternatives = before ++ e :: after ∧ node.children = [child] ∧
      (∀ b ∈ before, ∃ offset, Returns g b c (.failed offset)) ∧
      Returns g e c (.matched child stop) := by
  generalize ho : Outcome.matched node stop = o at h
  cases h with
  | @rule k _ r' _ body part _ hr' hbody hbranch =>
    obtain rfl : r = r' := Option.some.inj (hr.symm.trans hr')
    have hdeclared : ∀ e ∈ r.alternatives, ∀ s ∈ e.refs, g.Declares s :=
      fun e he s hs => Grammar.declares_of_mem_refsAll hr s (mem_refsAll_iff.mpr ⟨e, he, hs⟩)
    cases part with
    | failed offset => cases ho.trans hbranch
    | matched child stop' =>
      cases ho.trans hbranch
      obtain ⟨before, e, after, hsplit, hbefore, taken, htaken⟩ := hbody.exists_taken
      rw [hsplit, List.forall_mem_append, List.forall_mem_cons] at hdeclared
      obtain ⟨hdeclared_before, hdeclared_taken, -⟩ := hdeclared
      refine ⟨before, e, after, child, hsplit, rfl, fun b hb => ?_,
        htaken.returns hdeclared_taken⟩
      obtain ⟨tried, offset, hfails⟩ := hbefore b hb
      exact ⟨offset, hfails.returns (hdeclared_before b hb)⟩

end Engine

open Engine

/-- **Rule nodes can be replayed.** Let matching a rule at a position of a text return a match.
Every node in its tree that has the label of a rule comes from a rule of that name: an attempt of
that rule where the node starts, in either mode, returns the node and stops where the node stops.
The only child of the node is what the first alternative of the rule that matches there returns by
itself, and all alternatives before that one fail there. -/
theorem rule_nodes_replay {g : Grammar} {id : RuleId} {text : String} {i : Nat}
    {mode : MatchMode} {node : Node Unit} {stop : Cursor}
    (h : g.attempt id text i mode = .ok (.matched node stop)) :
    ∀ (m : Node Unit) (name : String), node.Contains m → m.label = .rule name →
      ∃ (j : RuleId) (r : Rule) (c d : Cursor), g.rule? j = some r ∧ r.name = name ∧
        Cursor.at? text.toList m.span.start.toNat = some c ∧
        Cursor.at? text.toList m.span.stop.toNat = some d ∧
        (∀ other, g.attempt j text m.span.start.toNat other = .ok (.matched m d)) ∧
        ∃ before e after child, r.alternatives = before ++ e :: after ∧ m.children = [child] ∧
          (∀ b ∈ before, ∃ offset, Returns g b c (.failed offset)) ∧
          Returns g e c (.matched child d) := by
  intro m name hm hlabel
  obtain ⟨hlen, start, n, steps, hstart, hrun⟩ := Grammar.exists_runs_of_attempt h
  obtain ⟨hstart, -⟩ := Cursor.at?_eq_some_iff.mp hstart
  -- the node is on record as the outcome of an attempt, and has a course of its own
  obtain ⟨c, d, hc, hcovers⟩ := hrun.covers.exists_covers_of_contains hm
  obtain ⟨e, hmade⟩ := hcovers.holds
  obtain ⟨-, k, own, hown⟩ := hrun.soundSteps _ hmade
  obtain ⟨j, r, rfl, hr, hname⟩ := hown.exists_rule_of_label hlabel
  obtain ⟨hfirst, hlast⟩ := Span.toNat_of hlen (hstart.trans hc) hcovers.reaches
  rw [← hcovers.span_eq] at hfirst hlast
  have hatc : Cursor.at? text.toList m.span.start.toNat = some c :=
    Cursor.at?_eq_some_iff.mpr ⟨hstart.trans hc, hfirst.symm⟩
  have hatd : Cursor.at? text.toList m.span.stop.toNat = some d :=
    Cursor.at?_eq_some_iff.mpr ⟨(hstart.trans hc).trans hcovers.reaches, hlast.symm⟩
  exact ⟨j, r, c, d, hr, hname, hatc, hatd, Grammar.attempt_eq_ok hlen hatc hown,
    hown.exists_first_alternative hr⟩

/-- Sums of numbers, where a number is tried with two digits before it is tried with one. -/
def sums : Grammar where
  rules := #[
    ⟨"sum", [.sequence [.rule ⟨1⟩, .literal "+", .rule ⟨0⟩], .rule ⟨1⟩], nofun⟩,
    ⟨"number", [.literal "12", .literal "1"], nofun⟩]
  start := ⟨0⟩
  valid := rfl

/-- The number at the end of a sum, which was matched twice: its first match was given up with the
sum that could not go on behind it. -/
def lastNumber : Node Unit := .branch (.rule "number") (.of 2 3) [.leaf .literal (.of 2 3) ()]

/-- The match of a sum of two numbers. -/
def twoNumbers : Node Unit :=
  .branch (.rule "sum") (.of 0 3) [.branch .sequence (.of 0 3) [
    .branch (.rule "number") (.of 0 1) [.leaf .literal (.of 0 1) ()],
    .leaf .literal (.of 1 2) (),
    .branch (.rule "sum") (.of 2 3) [lastNumber]]]

theorem lastNumber_replays :
    sums.attempt ⟨0⟩ "1+1" 0 .syntactic = .ok (.matched twoNumbers ⟨3, []⟩) ∧
    twoNumbers.Contains lastNumber ∧
    ∃ (j : RuleId) (r : Rule) (d : Cursor), sums.rule? j = some r ∧ r.name = "number" ∧
      Cursor.at? "1+1".toList 3 = some d ∧
      ∀ other, sums.attempt j "1+1" 2 other = .ok (.matched lastNumber d) := by
  have hattempt : sums.attempt ⟨0⟩ "1+1" 0 .syntactic = .ok (.matched twoNumbers ⟨3, []⟩) := by
    decide +kernel
  have hcontains : twoNumbers.Contains lastNumber :=
    .tail (.tail (.single (List.mem_singleton.mpr rfl))
      (List.mem_cons_of_mem _ (List.mem_cons_of_mem _ (List.mem_singleton.mpr rfl))))
      (List.mem_singleton.mpr rfl)
  obtain ⟨j, r, c, d, hr, hname, -, hd, hreplay, -⟩ :=
    rule_nodes_replay hattempt lastNumber "number" hcontains rfl
  exact ⟨hattempt, hcontains, j, r, d, hr, hname, hd, hreplay⟩

end PegGrammar
