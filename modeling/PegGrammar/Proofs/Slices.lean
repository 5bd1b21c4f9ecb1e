import Mathlib.Logic.Relation
import PegGrammar.Proofs.Conformance
import PegGrammar.Proofs.Discovery
import PegGrammar.Proofs.Observation
import PegGrammar.Proofs.Replay

/-!
# Discovered rules are all that a parse needs

A deep discovery follows the references of rules, and a parse calls rules. The first is a walk
through the grammar and the second a recursion over a text, but they meet in the same place: an
expression can only call what it refers to. So a parse never leaves the discovered rules, and two
grammars that agree on them cannot be told apart by parsing.

## Matches that never return

Rules are also entered in a match that goes on for ever, of which there is no record. What such a
match comes to is said by `TurnsTo`, task by task: a task turns to another when those before it
have returned, and whether the other returns is left open. A chain of turns is the way down to
something that the engine is at work on at some time, and for matches that return it is exactly
what is on record (`Runs.tried_iff`).

## Main definitions

* `Engine.Task`, `Engine.TurnsTo` — what the engine is at work on, and what it turns to
* `Engine.Enters` — the rules entered in the course of a match, whether or not it returns
* `Grammar.Encloses` — rules that refer to each other only

## Main results

* `Engine.Runs.tried_iff` — the rules on record are the rules entered
* `Grammar.Encloses.mem_of_comesTo` — a match stays within a closed list of rules
* `Engine.Runs.transfer` — a run goes through in every grammar with the same rules in the list
* `deep_discovery_slices` — discovered rules are all that a parse needs
-/

namespace PegGrammar

open Relation

namespace Engine

/-! ### Tasks -/

/-- What the engine can be at work on: a call of one of its four functions. -/
inductive Task where
  /-- Matching an expression. -/
  | expr (e : Expr) (c : Cursor)
  /-- Matching the elements of a sequence from some element on. -/
  | elements (es : List Expr) (c : Cursor)
  /-- Matching the alternatives of a choice from some alternative on. -/
  | alternatives (es : List Expr) (c : Cursor)
  /-- Matching an operand again, after so many rounds. -/
  | rounds (e : Expr) (bounds : Bounds) (count : Nat) (c : Cursor)

/-- In the course of one task the engine turns to another. What it does before that returns; the
other need not. -/
inductive TurnsTo (g : Grammar) : Task → Task → Prop
  /-- A sequence is matched by its elements. -/
  | sequence {es : List Expr} {c : Cursor} :
    TurnsTo g (.expr (.sequence es) c) (.elements es c)
  /-- A choice is matched by its alternatives. -/
  | choice {es : List Expr} {c : Cursor} :
    TurnsTo g (.expr (.choice es) c) (.alternatives es c)
  /-- A repetition is matched by rounds. -/
  | repeated {e : Expr} {bounds : Bounds} {c : Cursor} :
    TurnsTo g (.expr (.repeated e bounds) c) (.rounds e bounds 0 c)
  /-- A rule is matched by its alternatives. -/
  | rule {id : RuleId} {r : Rule} {c : Cursor} : g.rule? id = some r →
    TurnsTo g (.expr (.rule id) c) (.alternatives r.alternatives c)
  /-- The first element is matched. -/
  | element {e : Expr} {es : List Expr} {c : Cursor} :
    TurnsTo g (.elements (e :: es) c) (.expr e c)
  /-- After the first element the others are matched. -/
  | nextElement {n : Nat} {e : Expr} {es : List Expr} {c stop : Cursor} {steps : List Step}
      {node : Node Unit} : Runs g n e c steps (.matched node stop) →
    TurnsTo g (.elements (e :: es) c) (.elements es stop)
  /-- The first alternative is tried. -/
  | alternative {e : Expr} {es : List Expr} {c : Cursor} :
    TurnsTo g (.alternatives (e :: es) c) (.expr e c)
  /-- After the failure of the first alternative the others are tried. -/
  | nextAlternative {n : Nat} {e : Expr} {es : List Expr} {c : Cursor} {steps : List Step}
      {offset : Nat} : Runs g n e c steps (.failed offset) →
    TurnsTo g (.alternatives (e :: es) c) (.alternatives es c)
  /-- A round is played if the bounds allow it. -/
  | round {e : Expr} {bounds : Bounds} {count : Nat} {c : Cursor} :
    bounds.allowsMore count = true →
    TurnsTo g (.rounds e bounds count c) (.expr e c)
  /-- After a round that consumes something there may be others. -/
  | nextRound {n : Nat} {e : Expr} {bounds : Bounds} {count : Nat} {c stop : Cursor}
      {steps : List Step} {node : Node Unit} : bounds.allowsMore count = true →
    Runs g n e c steps (.matched node stop) → stop.rest.length < c.rest.length →
    TurnsTo g (.rounds e bounds count c) (.rounds e bounds (count + 1) stop)

/-- In the course of a task the engine comes to work on another, in some number of turns. -/
abbrev ComesTo (g : Grammar) (t t' : Task) : Prop := ReflTransGen (TurnsTo g) t t'

/-- In the course of matching the rule `id` at `c`, which may or may not return, the rule `s` is
entered at `d`. -/
def Enters (g : Grammar) (id : RuleId) (c : Cursor) (s : RuleId) (d : Cursor) : Prop :=
  ComesTo g (.expr (.rule id) c) (.expr (.rule s) d)

/-! ### What is on record has been come to -/

variable {g : Grammar}

/-- What an entry of a record says about the task whose record it is: an expression that was tried
has been come to, and so has a rule of the name that the observer was told. -/
def Step.Traced (g : Grammar) (t : Task) : Step → Prop
  | .tried e d | .settled e d _ => ComesTo g t (.expr e d)
  | .told (.enter name _) | .told (.exit name _ _) =>
    ∃ s r d, g.rule? s = some r ∧ r.name = name ∧ ComesTo g t (.expr (.rule s) d)
  | .told (.backtrack _ _) | .made => True

/-- A record whose entries are all traced. -/
def TracedSteps (g : Grammar) (t : Task) (steps : List Step) : Prop := ∀ s ∈ steps, s.Traced g t

namespace TracedSteps

variable {t t' : Task} {steps more : List Step}

theorem nil : TracedSteps g t [] := fun _ h => absurd h List.not_mem_nil

theorem append (h : TracedSteps g t steps) (h' : TracedSteps g t more) :
    TracedSteps g t (steps ++ more) :=
  List.forall_mem_append.mpr ⟨h, h'⟩

/-- The record of a task is part of the record of the task that turned to it. -/
theorem of_turnsTo (h : TracedSteps g t' steps) (hturn : TurnsTo g t t') :
    TracedSteps g t steps := by
  intro s hs
  have hs' := h s hs
  cases s with
  | tried e d => exact hs'.head hturn
  | settled e d o => exact hs'.head hturn
  | made => trivial
  | told event =>
    cases event with
    | enter name position =>
      obtain ⟨s, r, d, hr, hname, hcomes⟩ := hs'
      exact ⟨s, r, d, hr, hname, hcomes.head hturn⟩
    | exit name position success =>
      obtain ⟨s, r, d, hr, hname, hcomes⟩ := hs'
      exact ⟨s, r, d, hr, hname, hcomes.head hturn⟩
    | backtrack failure restart => trivial

theorem made : TracedSteps g t [.made] := List.forall_mem_singleton.mpr trivial

/-- Making a node is not an attempt, so it adds nothing that would have to be come to. -/
theorem nodeSteps {α : Type} (o : Outcome α) : TracedSteps g t (nodeSteps o) := by
  cases o with
  | matched value stop => exact made
  | failed offset => exact nil

/-- Giving up an alternative is told to the observer, but names no rule. -/
theorem giveUpSteps (rest : List Expr) (failure restart : Nat) :
    TracedSteps g t (giveUpSteps rest failure restart) := by
  cases rest with
  | nil => exact nil
  | cons e es => exact List.forall_mem_singleton.mpr trivial

/-- The two events of a rule name the rule that the task itself is about. -/
theorem ruleSteps {α : Type} {id : RuleId} {r : Rule} {c : Cursor} (hr : g.rule? id = some r)
    (h : TracedSteps g (.expr (.rule id) c) steps) (o : Outcome α) :
    TracedSteps g (.expr (.rule id) c) (ruleSteps r.name c steps o) :=
  append (List.forall_mem_cons.mpr ⟨⟨id, r, c, hr, rfl, .refl⟩, h⟩)
    (List.forall_mem_cons.mpr ⟨⟨id, r, c, hr, rfl, .refl⟩, nodeSteps o⟩)

/-- The first and the last step of a task are about the task itself, to which no turn at all is
needed. -/
theorem framed {e : Expr} {c : Cursor} (h : TracedSteps g (.expr e c) steps)
    (o : Outcome (Node Unit)) : TracedSteps g (.expr e c) (framed e c steps o) :=
  append (List.forall_mem_cons.mpr ⟨.refl, h⟩) (List.forall_mem_singleton.mpr .refl)

end TracedSteps

mutual

/-- **Everything on record has been come to.** By induction on the course: the record of a part is
the record of a task that the engine turned to, and `of_turnsTo` makes it part of the whole. -/
theorem Runs.traced {n : Nat} {e : Expr} {c : Cursor} {steps : List Step}
    {o : Outcome (Node Unit)} : Runs g n e c steps o → TracedSteps g (.expr e c) steps
  | .accepted _ _ => .framed .made _
  | .rejected _ => .framed .nil _
  | .sequence h _ => .framed ((h.traced.of_turnsTo .sequence).append (.nodeSteps _)) _
  | .choice h _ => .framed ((h.traced.of_turnsTo .choice).append (.nodeSteps _)) _
  | .repeated h _ => .framed ((h.traced.of_turnsTo .repeated).append (.nodeSteps _)) _
  | .rule hr h _ => .framed (.ruleSteps hr (h.traced.of_turnsTo (.rule hr)) _) _

theorem RunsEach.traced {n : Nat} {es : List Expr} {c : Cursor} {steps : List Step}
    {o : Outcome (List (Node Unit))} :
    RunsEach g n es c steps o → TracedSteps g (.elements es c) steps
  | .nil => .nil
  | .cons h hs => (h.traced.of_turnsTo .element).append (hs.traced.of_turnsTo (.nextElement h))
  | .stuck h => h.traced.of_turnsTo .element

theorem RunsFirst.traced {n : Nat} {es : List Expr} {c : Cursor} {furthest : Nat}
    {steps : List Step} {o : Outcome (Node Unit)} :
    RunsFirst g n es c furthest steps o → TracedSteps g (.alternatives es c) steps
  | .nil => .nil
  | .hit h => h.traced.of_turnsTo .alternative
  | .miss h hs =>
    ((h.traced.of_turnsTo .alternative).append (.giveUpSteps _ _ _)).append
      (hs.traced.of_turnsTo (.nextAlternative h))

theorem RunsMany.traced {n : Nat} {e : Expr} {bounds : Bounds} {count : Nat} {c : Cursor}
    {steps : List Step} {o : Outcome (List (Node Unit))} :
    RunsMany g n e bounds count c steps o → TracedSteps g (.rounds e bounds count c) steps
  | .full _ => .nil
  | .enough hb h _ => h.traced.of_turnsTo (.round hb)
  | .tooFew hb h _ => h.traced.of_turnsTo (.round hb)
  | .idle hb h _ => h.traced.of_turnsTo (.round hb)
  | .again hb h hs hm =>
    (h.traced.of_turnsTo (.round hb)).append (hm.traced.of_turnsTo (.nextRound hb h hs))

end

/-! ### What has been come to is on record -/

/-- The task has a course through these steps. -/
def Task.Takes (g : Grammar) : Task → List Step → Prop
  | .expr e c, steps => ∃ n o, Runs g n e c steps o
  | .elements es c, steps => ∃ n o, RunsEach g n es c steps o
  | .alternatives es c, steps => ∃ n furthest o, RunsFirst g n es c furthest steps o
  | .rounds e bounds count c, steps => ∃ n o, RunsMany g n e bounds count c steps o

/-- The steps of the body survive in the steps of the attempt around it, in their order. -/
theorem sublist_framed {body inner : List Step} (hsub : inner.Sublist body) (e : Expr) (c : Cursor)
    (o : Outcome (Node Unit)) : inner.Sublist (framed e c body o) :=
  List.sublist_append_of_sublist_left (hsub.cons _)

/-- A task that returns turns only to tasks that return, and their steps are among its own: the
course of what was done before the turn is the one that the turn speaks of. -/
theorem TurnsTo.exists_takes {t t' : Task} {steps : List Step} (hturn : TurnsTo g t t')
    (h : t.Takes g steps) : ∃ inner, t'.Takes g inner ∧ inner.Sublist steps := by
  cases hturn with
  | sequence =>
    obtain ⟨n, o, hrun⟩ := h
    obtain ⟨body, parts, hbody, -, rfl⟩ := runs_sequence_iff.mp hrun
    exact ⟨body, ⟨n, parts, hbody⟩, sublist_framed (List.sublist_append_left _ _) _ _ _⟩
  | choice =>
    obtain ⟨n, o, hrun⟩ := h
    obtain ⟨body, part, hbody, -, rfl⟩ := runs_choice_iff.mp hrun
    exact ⟨body, ⟨n, _, part, hbody⟩, sublist_framed (List.sublist_append_left _ _) _ _ _⟩
  | repeated =>
    obtain ⟨n, o, hrun⟩ := h
    obtain ⟨body, parts, hbody, -, rfl⟩ := runs_repeated_iff.mp hrun
    exact ⟨body, ⟨n, parts, hbody⟩, sublist_framed (List.sublist_append_left _ _) _ _ _⟩
  | rule hr =>
    obtain ⟨n, o, hrun⟩ := h
    cases hrun with
    | rule hr' hbody _ =>
      cases hr.symm.trans hr'
      refine ⟨_, ⟨_, _, _, hbody⟩, sublist_framed ?_ _ _ _⟩
      exact List.sublist_append_of_sublist_left (List.sublist_cons_self _ _)
  | element =>
    obtain ⟨n, o, hrun⟩ := h
    rcases runsEach_cons_iff.mp hrun with ⟨first, _, _, more, _, hfirst, -, rfl, -⟩ | ⟨_, hfirst, -⟩
    · exact ⟨first, ⟨n, _, hfirst⟩, List.sublist_append_left _ _⟩
    · exact ⟨steps, ⟨n, _, hfirst⟩, List.Sublist.refl _⟩
  | nextElement hbefore =>
    obtain ⟨n, o, hrun⟩ := h
    rcases runsEach_cons_iff.mp hrun with
      ⟨first, _, _, more, _, hfirst, hmore, rfl, -⟩ | ⟨_, hfirst, -⟩
    · cases (hbefore.unique hfirst).2
      exact ⟨more, ⟨n, _, hmore⟩, List.sublist_append_right _ _⟩
    · cases (hbefore.unique hfirst).2
  | alternative =>
    obtain ⟨n, furthest, o, hrun⟩ := h
    rcases runsFirst_cons_iff.mp hrun with ⟨_, _, hfirst, -⟩ | ⟨first, _, more, hfirst, -, rfl⟩
    · exact ⟨steps, ⟨n, _, hfirst⟩, List.Sublist.refl _⟩
    · exact ⟨first, ⟨n, _, hfirst⟩,
        List.sublist_append_of_sublist_left (List.sublist_append_left _ _)⟩
  | nextAlternative hbefore =>
    obtain ⟨n, furthest, o, hrun⟩ := h
    rcases runsFirst_cons_iff.mp hrun with ⟨_, _, hfirst, -⟩ | ⟨first, _, more, hfirst, hmore, rfl⟩
    · cases (hbefore.unique hfirst).2
    · exact ⟨more, ⟨n, _, _, hmore⟩, List.sublist_append_right _ _⟩
  | round hb =>
    obtain ⟨n, o, hrun⟩ := h
    rcases (runsMany_more_iff hb).mp hrun with
      ⟨_, hround, -⟩ | ⟨_, _, hround, -⟩ | ⟨round, _, _, more, _, hround, -, -, rfl, -⟩
    · exact ⟨steps, ⟨n, _, hround⟩, List.Sublist.refl _⟩
    · exact ⟨steps, ⟨n, _, hround⟩, List.Sublist.refl _⟩
    · exact ⟨round, ⟨n, _, hround⟩, List.sublist_append_left _ _⟩
  | nextRound hb hbefore hshorter =>
    obtain ⟨n, o, hrun⟩ := h
    rcases (runsMany_more_iff hb).mp hrun with
      ⟨_, hround, -⟩ | ⟨_, _, hround, hidle, -⟩ | ⟨round, _, _, more, _, hround, -, hmore, rfl, -⟩
    · cases (hbefore.unique hround).2
    · cases (hbefore.unique hround).2
      exact absurd hshorter hidle
    · cases (hbefore.unique hround).2
      exact ⟨more, ⟨n, _, hmore⟩, List.sublist_append_right _ _⟩

/-- What is known of one turn holds for any number of them, by induction along the chain. -/
theorem ComesTo.exists_takes {t t' : Task} {steps : List Step} (hcomes : ComesTo g t t')
    (h : t.Takes g steps) : ∃ inner, t'.Takes g inner ∧ inner.Sublist steps := by
  induction hcomes with
  | refl => exact ⟨steps, h, List.Sublist.refl _⟩
  | tail _ hturn ih =>
    obtain ⟨inner, hinner, hsub⟩ := ih
    obtain ⟨innermost, hinnermost, hsub'⟩ := hturn.exists_takes hinner
    exact ⟨innermost, hinnermost, hsub'.trans hsub⟩

/-- Every attempt has itself on record, as its first step. -/
theorem Runs.tried_mem {n : Nat} {e : Expr} {c : Cursor} {steps : List Step}
    {o : Outcome (Node Unit)} (h : Runs g n e c steps o) : .tried e c ∈ steps := by
  cases h <;> exact List.mem_append_left _ List.mem_cons_self

/-- **The rules on record are the rules entered.** -/
theorem Runs.tried_iff {n : Nat} {id s : RuleId} {c d : Cursor} {steps : List Step}
    {o : Outcome (Node Unit)} (h : Runs g n (.rule id) c steps o) :
    .tried (.rule s) d ∈ steps ↔ Enters g id c s d := by
  constructor
  · intro htried
    exact h.traced _ htried
  · intro henters
    obtain ⟨inner, ⟨k, o', hinner⟩, hsub⟩ := henters.exists_takes ⟨n, o, h⟩
    exact hsub.subset hinner.tried_mem

end Engine

open Engine

/-! ### Closed lists of rules -/

/-- The rules that a task can call without the help of another rule. -/
def Engine.Task.refs : Task → List RuleId
  | .expr e _ | .rounds e _ _ _ => e.refs
  | .elements es _ | .alternatives es _ => Expr.refsAll es

namespace Grammar

variable {g g' : Grammar} {ids : List RuleId}

/-- The rules of the list refer to rules of the list only. -/
def Encloses (g : Grammar) (ids : List RuleId) : Prop :=
  ∀ id ∈ ids, ∀ r, g.rule? id = some r → Expr.refsAll r.alternatives ⊆ ids

/-- A deep discovery follows every reference, so it ends with rules that refer to each other
only. -/
theorem encloses_discover (g : Grammar) : g.Encloses (g.discover .deep) :=
  fun _ hid _ hr _ hs => mem_discover_of_mem_refsAll hid hr hs

/-- To be closed is a property of the rules on the list, and not of the grammar around them. -/
theorem Encloses.of_agree (h : g.Encloses ids) (hagree : ∀ s ∈ ids, g'.rule? s = g.rule? s) :
    g'.Encloses ids := by
  intro id hid r hr
  exact h id hid r ((hagree id hid).symm.trans hr)

/-- The invariant of a match that stays within a closed list: each turn is to a part of the
expression or to the body of a rule on the list. -/
theorem Encloses.refs_subset_of_turnsTo (hids : g.Encloses ids) {t t' : Task}
    (hturn : TurnsTo g t t') (h : t.refs ⊆ ids) : t'.refs ⊆ ids := by
  cases hturn with
  | sequence => exact h
  | choice => exact h
  | repeated => exact h
  | rule hr => exact hids _ (h (List.mem_singleton.mpr rfl)) _ hr
  | element => exact (List.append_subset.mp h).1
  | nextElement => exact (List.append_subset.mp h).2
  | alternative => exact (List.append_subset.mp h).1
  | nextAlternative => exact (List.append_subset.mp h).2
  | round => exact h
  | nextRound => exact h

/-- **A match stays within a closed list of rules**, also if it never returns. -/
theorem Encloses.mem_of_comesTo (hids : g.Encloses ids) {id s : RuleId} {c d : Cursor}
    (hid : id ∈ ids) (h : ComesTo g (.expr (.rule id) c) (.expr (.rule s) d)) : s ∈ ids := by
  have hrefs : ∀ t, ComesTo g (.expr (.rule id) c) t → t.refs ⊆ ids := by
    intro t hcomes
    induction hcomes with
    | refl => exact List.cons_subset.mpr ⟨hid, List.nil_subset _⟩
    | tail _ hturn ih => exact hids.refs_subset_of_turnsTo hturn ih
  exact hrefs _ h (List.mem_singleton.mpr rfl)

end Grammar

/-! ### The same rules, the same runs -/

namespace Engine

variable {g g' : Grammar} {ids : List RuleId}

mutual

/-- **A run goes through in every grammar with the same rules in a closed list.** -/
theorem Runs.transfer (hids : g.Encloses ids) (hagree : ∀ s ∈ ids, g'.rule? s = g.rule? s)
    {n : Nat} {e : Expr} {c : Cursor} {steps : List Step} {o : Outcome (Node Unit)} :
    Runs g n e c steps o → e.refs ⊆ ids → Runs g' n e c steps o
  | .accepted h ho, _ => .accepted h ho
  | .rejected h, _ => .rejected h
  | .sequence h ho, hrefs => .sequence (h.transfer hids hagree hrefs) ho
  | .choice h ho, hrefs => .choice (h.transfer hids hagree hrefs) ho
  | .repeated h ho, hrefs => .repeated (h.transfer hids hagree hrefs) ho
  | .rule hr h ho, hrefs => by
    have hid := hrefs (List.mem_singleton.mpr rfl)
    exact .rule ((hagree _ hid).trans hr) (h.transfer hids hagree (hids _ hid _ hr)) ho

theorem RunsEach.transfer (hids : g.Encloses ids) (hagree : ∀ s ∈ ids, g'.rule? s = g.rule? s)
    {n : Nat} {es : List Expr} {c : Cursor} {steps : List Step} {o : Outcome (List (Node Unit))} :
    RunsEach g n es c steps o → Expr.refsAll es ⊆ ids → RunsEach g' n es c steps o
  | .nil, _ => .nil
  | .cons h hs, hrefs =>
    .cons (h.transfer hids hagree (List.append_subset.mp hrefs).1)
      (hs.transfer hids hagree (List.append_subset.mp hrefs).2)
  | .stuck h, hrefs => .stuck (h.transfer hids hagree (List.append_subset.mp hrefs).1)

theorem RunsFirst.transfer (hids : g.Encloses ids) (hagree : ∀ s ∈ ids, g'.rule? s = g.rule? s)
    {n : Nat} {es : List Expr} {c : Cursor} {furthest : Nat} {steps : List Step}
    {o : Outcome (Node Unit)} :
    RunsFirst g n es c furthest steps o → Expr.refsAll es ⊆ ids →
      RunsFirst g' n es c furthest steps o
  | .nil, _ => .nil
  | .hit h, hrefs => .hit (h.transfer hids hagree (List.append_subset.mp hrefs).1)
  | .miss h hs, hrefs =>
    .miss (h.transfer hids hagree (List.append_subset.mp hrefs).1)
      (hs.transfer hids hagree (List.append_subset.mp hrefs).2)

theorem RunsMany.transfer (hids : g.Encloses ids) (hagree : ∀ s ∈ ids, g'.rule? s = g.rule? s)
    {n : Nat} {e : Expr} {bounds : Bounds} {count : Nat} {c : Cursor} {steps : List Step}
    {o : Outcome (List (Node Unit))} :
    RunsMany g n e bounds count c steps o → e.refs ⊆ ids →
      RunsMany g' n e bounds count c steps o
  | .full hb, _ => .full hb
  | .enough hb h hc, hrefs => .enough hb (h.transfer hids hagree hrefs) hc
  | .tooFew hb h hc, hrefs => .tooFew hb (h.transfer hids hagree hrefs) hc
  | .idle hb h hs, hrefs => .idle hb (h.transfer hids hagree hrefs) hs
  | .again hb h hs hm, hrefs =>
    .again hb (h.transfer hids hagree hrefs) hs (hm.transfer hids hagree hrefs)

end

variable {id : RuleId} {c : Cursor}

/-- A call of a rule of a closed list never returns in one grammar exactly if it never returns in
the other: a run would go through in both. -/
theorem diverges_iff_of_agree (hids : g.Encloses ids)
    (hagree : ∀ s ∈ ids, g'.rule? s = g.rule? s) (hid : id ∈ ids) (hdeclares : g.Declares id) :
    Diverges g' id c ↔ Diverges g id c := by
  have hrefs : (Expr.rule id).refs ⊆ ids := List.cons_subset.mpr ⟨hid, List.nil_subset _⟩
  have hdeclares' : g'.Declares id := by
    obtain ⟨r, hr⟩ := Grammar.declares_iff_exists_rule?.mp hdeclares
    exact Grammar.declares_of_rule? ((hagree id hid).trans hr)
  rw [diverges_iff hdeclares, diverges_iff hdeclares']
  constructor
  · intro h n steps o hrun
    exact h n steps o (hrun.transfer hids hagree hrefs)
  · intro h n steps o hrun
    exact h n steps o (hrun.transfer (hids.of_agree hagree) (fun s hs => (hagree s hs).symm) hrefs)

end Engine

/-! ### Parses -/

namespace Grammar

variable {σ : Type} {g g' : Grammar} {text : String}

/-- A text that is too long is refused before any rule is looked at, so that no agreement between
grammars is needed for it. -/
theorem parseWith_of_long (hlen : maxInputLength < Text.byteLength text.toList)
    (config : ParseConfig) (handle : σ → Event → σ) (observer : σ) :
    g.parseWith text config handle observer
      = .error (.inputTooLong (Text.byteLength text.toList)) := by
  rw [parseWith, checkLength, if_neg (Nat.not_le.mpr hlen)]
  rfl

/-- **Grammars with the same discovered rules parse alike.** -/
theorem parseWith_eq_of_agree (hstart : g'.start = g.start)
    (hagree : ∀ s ∈ g.discover .deep, g'.rule? s = g.rule? s) (text : String)
    (config : ParseConfig) (handle : σ → Event → σ) (observer : σ) :
    g'.parseWith text config handle observer = g.parseWith text config handle observer := by
  rcases Nat.lt_or_ge maxInputLength (Text.byteLength text.toList) with hlong | hlen
  · rw [parseWith_of_long hlong, parseWith_of_long hlong]
  have hids := g.encloses_discover
  have hmem := g.start_mem_discover .deep
  rcases runs_or_diverges (declares_start g) (.start text.toList) with
    ⟨n, steps, o, hrun⟩ | hdiv
  · have hrun' : Runs g' n (.rule g'.start) (.start text.toList) steps o := by
      rw [hstart]
      exact hrun.transfer hids hagree (List.cons_subset.mpr ⟨hmem, List.nil_subset _⟩)
    rw [parseWith_eq hlen hrun, parseWith_eq hlen hrun']
  · have hdiv' : Diverges g' g'.start (.start text.toList) := by
      rw [hstart]
      exact (diverges_iff_of_agree hids hagree hmem (declares_start g)).mpr hdiv
    rw [parseWith_eq_error hlen hdiv, parseWith_eq_error hlen hdiv']

end Grammar

/-- The label of a node is kept when lexemes are attached. -/
theorem Node.label_of_withLexemes {text : List Char} {raw : Node Unit} {n : Node String}
    (h : raw.withLexemes text = .ok n) : n.label = raw.label := by
  rw [← Node.shape_withLexemes h]
  cases n <;> rfl

/-- **Discovered rules are all that a parse needs.** Let `D` be the rules that a deep discovery
lists.

* Every rule that is entered in the course of a parse of a text, which may or may not return, is in
  `D`.
* For a parse that returns, the rules entered are those on record. An observer is told only the
  names of rules in `D`, and only such names are labels in the tree.
* A grammar with the same start and the same rules in `D`, whatever its other rules are and however
  many it has, discovers `D` too, and parses every text in every configuration with the same result,
  statistics and events, or fails to return as the first does. -/
theorem deep_discovery_slices (g : Grammar) :
    (∀ (text : String) (s : RuleId) (d : Cursor),
      Enters g g.start (.start text.toList) s d → s ∈ g.discover .deep) ∧
    (∀ (σ : Type) (text : String) (config : ParseConfig) (handle : σ → Event → σ)
        (observer last : σ) (result : Except ParseError ParseOutput),
      g.parseWith text config handle observer = .ok (result, last) →
      ∃ n steps o, Runs g n (.rule g.start) (.start text.toList) steps o ∧
        last = (eventsOf steps).foldl handle observer ∧
        (∀ s d, .tried (.rule s) d ∈ steps ↔ Enters g g.start (.start text.toList) s d) ∧
        (∀ name position, .enter name position ∈ eventsOf steps →
          ∃ s ∈ g.discover .deep, (g.rule? s).map Rule.name = some name) ∧
        ∀ output, result = .ok output → ∀ m name, output.tree.root.Contains m →
          m.label = .rule name →
          ∃ s ∈ g.discover .deep, (g.rule? s).map Rule.name = some name) ∧
    ∀ g' : Grammar, g'.start = g.start → (∀ s ∈ g.discover .deep, g'.rule? s = g.rule? s) →
      g'.discover .deep = g.discover .deep ∧
      (∀ (σ : Type) (text : String) (config : ParseConfig) (handle : σ → Event → σ)
        (observer : σ),
        g'.parseWith text config handle observer = g.parseWith text config handle observer) ∧
      ∀ text : String, Diverges g' g'.start (.start text.toList) ↔
        Diverges g g.start (.start text.toList) := by
  have hids := g.encloses_discover
  have hmem := g.start_mem_discover .deep
  refine ⟨fun text s d henters => hids.mem_of_comesTo hmem henters, ?_, ?_⟩
  · intro σ text config handle observer last result h
    have hlen := Grammar.byteLength_le_of_parseWith h
    obtain ⟨n, steps, o, hrun⟩ := Grammar.exists_runs_of_parseWith_eq_ok h
    refine ⟨n, steps, o, hrun, ?_, fun s d => hrun.tried_iff, ?_, ?_⟩
    · obtain ⟨_, _, hparse⟩ := Grammar.exists_parseWith_eq hlen hrun config.requireFullInput
      obtain ⟨_, hresult, _⟩ := hparse σ config.collectStats handle observer
      exact congrArg Prod.snd (Except.ok.inj (h.symm.trans hresult))
    · intro name position hevent
      obtain ⟨step, hstep, htold⟩ := List.mem_filterMap.mp hevent
      cases step with
      | told event =>
        cases htold
        obtain ⟨s, r, d, hr, rfl, hcomes⟩ := hrun.traced _ hstep
        exact ⟨s, hids.mem_of_comesTo hmem hcomes, by rw [hr]; rfl⟩
      | tried e d => cases htold
      | settled e d o => cases htold
      | made => cases htold
    · rintro output rfl m name hm hlabel
      obtain ⟨k, steps', raw, stop, hrun', hcovers, -⟩ := Grammar.exists_runs_of_parseWith h
      obtain ⟨c, d, -, hnode⟩ := hcovers.exists_covers_of_contains hm
      obtain ⟨raw', hraw', e, hmade⟩ := hnode.holds
      obtain ⟨-, _, _, hown⟩ := hrun'.soundSteps _ hmade
      rw [Node.label_of_withLexemes hraw'] at hlabel
      obtain ⟨s, r, rfl, hr, rfl⟩ := hown.exists_rule_of_label hlabel
      exact ⟨s, hids.mem_of_comesTo hmem (hrun'.traced _ hmade), by rw [hr]; rfl⟩
  · intro g' hstart hagree
    refine ⟨Grammar.discover_eq_of_agree hstart hagree, fun σ text config handle observer =>
      Grammar.parseWith_eq_of_agree hstart hagree text config handle observer, fun text => ?_⟩
    rw [hstart]
    exact diverges_iff_of_agree hids hagree hmem (Grammar.declares_start g)

/-- Words one after the other, with a rule between them that nothing refers to but itself. -/
def padded : Grammar where
  rules := #[
    ⟨"words", [.sequence [.rule ⟨2⟩, .repeated (.rule ⟨0⟩) .zeroToOne]], nofun⟩,
    ⟨"spare", [.rule ⟨1⟩], nofun⟩,
    ⟨"word", [.literal "né", .literal "n"], nofun⟩]
  start := ⟨0⟩
  valid := rfl

/-- The same words, with another rule in the place of the spare one and a further rule behind. -/
def repadded : Grammar where
  rules := #[
    ⟨"words", [.sequence [.rule ⟨2⟩, .repeated (.rule ⟨0⟩) .zeroToOne]], nofun⟩,
    ⟨"mark", [.literal "!"], nofun⟩,
    ⟨"word", [.literal "né", .literal "n"], nofun⟩,
    ⟨"marks", [.rule ⟨1⟩, .rule ⟨0⟩], nofun⟩]
  start := ⟨0⟩
  valid := rfl

/-- The parse of one word. The rule of words is entered again behind it, and fails. -/
def oneWord : ParseOutput where
  tree := ⟨.branch (.rule "words") (.of 0 3) [.branch .sequence (.of 0 3) [
    .branch (.rule "word") (.of 0 3) [.leaf .literal (.of 0 3) "né"],
    .branch (.repeated .zeroToOne) (.of 3 3) []]]⟩
  stats := ⟨5, 1, 4, 3⟩

/-- Neither parse needs the rule in which the two grammars differ. -/
theorem repadded_parses_alike :
    repadded.rule? ⟨1⟩ ≠ padded.rule? ⟨1⟩ ∧ repadded.discover .deep = [⟨0⟩, ⟨2⟩] ∧
    padded.parseWith "né" {} (fun n _ => n + 1) 0 = .ok (.ok oneWord, 9) ∧
    repadded.parseWith "né" {} (fun n _ => n + 1) 0 = .ok (.ok oneWord, 9) ∧
    Enters padded ⟨0⟩ (.start "né".toList) ⟨2⟩ (.start "né".toList) ∧
    (∀ d, ¬ Enters padded ⟨0⟩ (.start "né".toList) ⟨1⟩ d) ∧
    ∀ m name, oneWord.tree.root.Contains m → m.label = .rule name →
      name = "words" ∨ name = "word" := by
  have hdiscover : padded.discover .deep = [⟨0⟩, ⟨2⟩] := by cbv
  have hagree : ∀ s ∈ padded.discover .deep, repadded.rule? s = padded.rule? s := by
    rw [hdiscover]
    decide
  have hparse : padded.parseWith "né" {} (fun n _ => n + 1) 0 = .ok (.ok oneWord, 9) := by
    decide +kernel
  obtain ⟨henters, hreturns, halike⟩ := deep_discovery_slices padded
  obtain ⟨hsame, hagain, -⟩ := halike repadded rfl hagree
  obtain ⟨n, steps, o, -, -, -, -, hlabels⟩ := hreturns _ _ _ _ _ _ _ hparse
  refine ⟨by decide, hsame.trans hdiscover, hparse, (hagain _ _ _ _ _).trans hparse, ?_, ?_, ?_⟩
  · exact .head (.rule rfl) (.head .alternative (.head .sequence (.single .element)))
  · intro d hd
    have hmem := henters "né" ⟨1⟩ d hd
    rw [hdiscover] at hmem
    exact absurd hmem (by decide)
  · intro m name hm hlabel
    obtain ⟨s, hs, hname⟩ := hlabels oneWord rfl m name hm hlabel
    rw [hdiscover] at hs
    rcases List.mem_pair.mp hs with rfl | rfl
    · exact Or.inl (Option.some.inj hname).symm
    · exact Or.inr (Option.some.inj hname).symm

end PegGrammar
