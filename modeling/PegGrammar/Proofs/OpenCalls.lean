import Mathlib.Data.List.Forall2
import PegGrammar.Proofs.Counters
import PegGrammar.Proofs.Slices

/-!
# No call is open twice

A match that returns never calls a rule inside a call of the same rule at the same position. The
engine does not check for this, and it need not: what a call does depends only on the rule and the
position, so a call that comes to itself again would do so for ever.

The calls open at one time are therefore different pairs of a rule and a position, and there are
only so many of these. That bounds how deep rules can nest, and with it the greatest depth that is
counted.

## Open calls and open rules

The rules open, `openRules`, are what an observer can know: names and positions, from the entry
told to the exit told. The calls open, `openCalls`, are what the engine is at work on: rules and
cursors, from the attempt made to the attempt settled. Between the two there is one difference.
The innermost call may be open before its rule is, and still be open when its rule no longer is.

## Main definitions

* `Engine.OpenCall`, `Engine.openCalls` — the calls open after some steps of a match
* `Engine.Scene` — the calls and the rules open at one time
* `Engine.Scene.Orderly` — each call open inside the ones before it, and the rules open are theirs

## Main results

* `Engine.Runs.not_comesTo_self` — a call that returns does not come to itself
* `Engine.Runs.orderly` — the calls open at any time of a match
* `Engine.Runs.length_openCalls_le` — there are no more of them than rules times positions
* `no_call_open_twice` — no call is open twice, and the greatest depth is bounded
-/

namespace PegGrammar

open Relation

namespace Engine

variable {g : Grammar}

/-! ### A call that returns does not come to itself -/

/-- **A call that returns does not come to itself.** Its record would be part of what lies between
the two ends of its record. -/
theorem Runs.not_comesTo_self {n : Nat} {id : RuleId} {c : Cursor} {steps : List Step}
    {o : Outcome (Node Unit)} (h : Runs g n (.rule id) c steps o) :
    ¬ TransGen (TurnsTo g) (.expr (.rule id) c) (.expr (.rule id) c) := by
  intro hself
  obtain ⟨t, hturn, hback⟩ := TransGen.head'_iff.mp hself
  cases hturn with
  | rule hr =>
    cases h with
    | @rule n _ _ _ body part _ hr' hbody ho =>
      cases hr.symm.trans hr'
      obtain ⟨inner, ⟨k, o', hinner⟩, hsub⟩ := ComesTo.exists_takes hback ⟨_, _, _, hbody⟩
      obtain ⟨rfl, -⟩ := (Runs.rule hr hbody ho).unique hinner
      have hle := hsub.length_le
      simp [framed, ruleSteps] at hle
      omega

/-! ### Open calls -/

/-- A call of a rule at a cursor that has not returned. -/
structure OpenCall where
  /-- The rule called. -/
  id : RuleId
  /-- Where it was called. -/
  cursor : Cursor
  deriving DecidableEq, Repr

namespace OpenCall

/-- The pair of a rule and a position. -/
def key (call : OpenCall) : RuleId × Nat := (call.id, call.cursor.offset)

/-- What the engine is at work on in the call. -/
def task (call : OpenCall) : Task := .expr (.rule call.id) call.cursor

/-- The call as an observer is told of it. -/
def Shows (g : Grammar) (call : OpenCall) (opened : OpenRule) : Prop :=
  (g.rule? call.id).map Rule.name = some opened.name ∧ call.cursor.offset = opened.position

end OpenCall

/-- The calls open after a step, the innermost first. -/
def Step.updateCalls (calls : List OpenCall) : Step → List OpenCall
  | .tried (.rule id) c => ⟨id, c⟩ :: calls
  | .settled (.rule _) _ _ => calls.tail
  | _ => calls

/-- The calls open after some steps, the innermost first. -/
def openCalls (steps : List Step) : List OpenCall := steps.foldl Step.updateCalls []

/-- A call that is open has been made. -/
theorem tried_of_mem_openCalls {steps : List Step} {call : OpenCall}
    (h : call ∈ openCalls steps) : .tried (.rule call.id) call.cursor ∈ steps := by
  induction steps using List.reverseRecOn with
  | nil => exact absurd h List.not_mem_nil
  | append_singleton steps s ih =>
    have hlast : openCalls (steps ++ [s]) = s.updateCalls (openCalls steps) := List.foldl_append
    rw [hlast] at h
    unfold Step.updateCalls at h
    split at h
    · rcases List.mem_cons.mp h with rfl | h
      · exact List.mem_append_right _ (List.mem_singleton.mpr rfl)
      · exact List.mem_append_left _ (ih h)
    · exact List.mem_append_left _ (ih (List.mem_of_mem_tail h))
    · exact List.mem_append_left _ (ih h)

/-! ### Scenes -/

/-- What is open at one time of a match: the calls, and the rules of which an observer knows. -/
structure Scene where
  /-- The calls open, the innermost first. -/
  calls : List OpenCall
  /-- The rules open, the innermost first. -/
  rules : List OpenRule

namespace Scene

/-- The scene after a step. -/
def next (s : Scene) (step : Step) : Scene where
  calls := step.updateCalls s.calls
  rules := (eventsOf [step]).foldl Event.update s.rules

/-- The scene after some steps. -/
def after (s : Scene) (steps : List Step) : Scene := steps.foldl next s

theorem after_append (s : Scene) (steps more : List Step) :
    s.after (steps ++ more) = (s.after steps).after more :=
  List.foldl_append

theorem calls_after (s : Scene) (steps : List Step) :
    (s.after steps).calls = steps.foldl Step.updateCalls s.calls := by
  induction steps generalizing s with
  | nil => rfl
  | cons step steps ih => exact ih (s.next step)

theorem rules_after (s : Scene) (steps : List Step) :
    (s.after steps).rules = (eventsOf steps).foldl Event.update s.rules := by
  induction steps generalizing s with
  | nil => rfl
  | cons step steps ih =>
    rw [← List.singleton_append (l := steps), eventsOf_append, List.foldl_append]
    exact ih (s.next step)

/-- Every call is open inside the calls before it, and the rules open are those of the calls, or
those of the calls but the innermost. -/
structure Orderly (g : Grammar) (s : Scene) : Prop where
  /-- Every call has come to those inside it. -/
  nested : s.calls.Pairwise fun inner outer => TransGen (TurnsTo g) outer.task inner.task
  /-- The rules open. -/
  shown : List.Forall₂ (OpenCall.Shows g) s.calls s.rules ∨
    List.Forall₂ (OpenCall.Shows g) s.calls.tail s.rules

/-- The scene in which the engine turns to a task: the task is inside all the calls open, and their
rules are open. -/
structure Ready (g : Grammar) (t : Task) (s : Scene) : Prop where
  /-- Every call has come to those inside it. -/
  nested : s.calls.Pairwise fun inner outer => TransGen (TurnsTo g) outer.task inner.task
  /-- Every call has come to the task. -/
  within : ∀ call ∈ s.calls, TransGen (TurnsTo g) call.task t
  /-- The rules open are those of the calls. -/
  shown : List.Forall₂ (OpenCall.Shows g) s.calls s.rules

/-- The steps lead from an orderly scene through orderly scenes back to the same scene. -/
structure Keeps (g : Grammar) (s : Scene) (steps : List Step) : Prop where
  /-- The scene is orderly at any time. -/
  orderly : ∀ before, before <+: steps → (s.after before).Orderly g
  /-- What was opened has been closed. -/
  same : s.after steps = s

variable {s : Scene} {t t' : Task} {steps more : List Step}

theorem Ready.orderly (h : s.Ready g t) : s.Orderly g := ⟨h.nested, Or.inl h.shown⟩

theorem Ready.turn (h : s.Ready g t) (hturn : TurnsTo g t t') : s.Ready g t' :=
  ⟨h.nested, fun call hcall => (h.within call hcall).tail hturn, h.shown⟩

namespace Keeps

theorem nil (hs : s.Orderly g) : s.Keeps g [] where
  orderly before hbefore := by
    rw [List.prefix_nil.mp hbefore]
    exact hs
  same := rfl

theorem append (h : s.Keeps g steps) (hmore : s.Keeps g more) : s.Keeps g (steps ++ more) where
  orderly before hbefore := by
    rcases List.prefix_or_prefix_of_prefix hbefore (List.prefix_append steps more) with hle | hle
    · exact h.orderly before hle
    · obtain ⟨part, rfl⟩ := hle
      rw [after_append, h.same]
      exact hmore.orderly part ((List.prefix_append_right_inj steps).mp hbefore)
  same := by rw [after_append, h.same, hmore.same]

/-- What lies between two steps that undo each other is seen from the scene after the first. -/
theorem bracket {first last : Step} (hs : s.Orderly g) (h : (s.next first).Keeps g steps)
    (hlast : (s.next first).next last = s) : s.Keeps g (first :: steps ++ [last]) := by
  have hsame : s.after (first :: steps ++ [last]) = s := by
    rw [after_append]
    exact (congrArg (·.next last) h.same).trans hlast
  refine ⟨fun before hbefore => ?_, hsame⟩
  rcases List.prefix_concat_iff.mp hbefore with rfl | hbefore
  · rw [hsame]
    exact hs
  · rcases List.prefix_cons_iff.mp hbefore with rfl | ⟨part, rfl, hpart⟩
    · exact hs
    · exact h.orderly part hpart

/-- A step that opens and closes nothing. -/
theorem singleton (hs : s.Orderly g) {step : Step} (hstep : s.next step = s) :
    s.Keeps g [step] where
  orderly before hbefore := by
    rcases List.prefix_cons_iff.mp hbefore with rfl | ⟨part, rfl, hpart⟩
    · exact hs
    · rw [List.prefix_nil.mp hpart, show s.after [step] = s from hstep]
      exact hs
  same := hstep

theorem nodeSteps {α : Type} (hs : s.Orderly g) (o : Outcome α) : s.Keeps g (nodeSteps o) := by
  cases o with
  | matched value stop => exact singleton hs rfl
  | failed offset => exact nil hs

theorem giveUpSteps (hs : s.Orderly g) (rest : List Expr) (failure restart : Nat) :
    s.Keeps g (giveUpSteps rest failure restart) := by
  cases rest with
  | nil => exact nil hs
  | cons e es => exact singleton hs rfl

/-- The frame of a form other than a call opens and closes nothing. -/
theorem framed {e : Expr} (he : ∀ id, e ≠ .rule id) (h : s.Keeps g steps) (c : Cursor)
    (o : Outcome (Node Unit)) : s.Keeps g (framed e c steps o) := by
  have htried : s.next (.tried e c) = s := by
    cases e <;> first | rfl | exact absurd rfl (he _)
  have hsettled : s.next (.settled e c o) = s := by
    cases e <;> first | rfl | exact absurd rfl (he _)
  refine bracket (h.orderly [] List.nil_prefix) (htried.symm ▸ h) ?_
  rw [htried, hsettled]

end Keeps

/-- Inside a call, once its rule has been entered, the engine is ready for the alternatives. -/
theorem Ready.enter {id : RuleId} {r : Rule} {c : Cursor} (h : s.Ready g (.expr (.rule id) c))
    (hr : g.rule? id = some r) :
    Ready g (.alternatives r.alternatives c)
      ⟨⟨id, c⟩ :: s.calls, ⟨r.name, c.offset⟩ :: s.rules⟩ where
  nested := List.pairwise_cons.mpr ⟨h.within, h.nested⟩
  within call hcall := by
    rcases List.mem_cons.mp hcall with rfl | hcall
    · exact .single (.rule hr)
    · exact (h.within call hcall).tail (.rule hr)
  shown := .cons ⟨by rw [hr]; rfl, rfl⟩ h.shown

/-- The steps of a call around those of its alternatives: the call is opened and its rule entered,
then the rule is left and the call closed. -/
theorem Ready.keeps_call {id : RuleId} {r : Rule} {c : Cursor} {part o : Outcome (Node Unit)}
    (h : s.Ready g (.expr (.rule id) c)) (hr : g.rule? id = some r)
    (hbody : Keeps g ⟨⟨id, c⟩ :: s.calls, ⟨r.name, c.offset⟩ :: s.rules⟩ steps) :
    s.Keeps g (Engine.framed (.rule id) c (ruleSteps r.name c steps part) o) := by
  -- the call is open, and its rule is not: not yet, or no longer
  have hopen : (s.next (.tried (.rule id) c)).Orderly g :=
    ⟨(h.enter hr).nested, Or.inr h.shown⟩
  have hrule : (s.next (.tried (.rule id) c)).Keeps g
      (.told (.enter r.name c.offset) :: steps ++
        [.told (.exit r.name part.position part.isMatched)]) :=
    .bracket hopen hbody rfl
  have hsteps : ruleSteps r.name c steps part
      = (.told (.enter r.name c.offset) :: steps ++
        [.told (.exit r.name part.position part.isMatched)]) ++ Engine.nodeSteps part := by
    simp [ruleSteps]
  rw [hsteps]
  exact .bracket h.orderly (hrule.append (.nodeSteps hopen part)) rfl

end Scene

mutual

/-- **At any time of a match the scene is orderly**, if the engine was ready for it. -/
theorem Runs.keeps {n : Nat} {e : Expr} {c : Cursor} {steps : List Step}
    {o : Outcome (Node Unit)} {s : Scene} :
    Runs g n e c steps o → s.Ready g (.expr e c) → s.Keeps g steps
  | .accepted _ _, hs => .framed (by simp) (.singleton hs.orderly rfl) _ _
  | .rejected _, hs => .framed (by simp) (.nil hs.orderly) _ _
  | .sequence h _, hs =>
    .framed (by simp) ((h.keeps (hs.turn .sequence)).append (.nodeSteps hs.orderly _)) _ _
  | .choice h _, hs =>
    .framed (by simp) ((h.keeps (hs.turn .choice)).append (.nodeSteps hs.orderly _)) _ _
  | .repeated h _, hs =>
    .framed (by simp) ((h.keeps (hs.turn .repeated)).append (.nodeSteps hs.orderly _)) _ _
  | .rule hr h _, hs => hs.keeps_call hr (h.keeps (hs.enter hr))

theorem RunsEach.keeps {n : Nat} {es : List Expr} {c : Cursor} {steps : List Step}
    {o : Outcome (List (Node Unit))} {s : Scene} :
    RunsEach g n es c steps o → s.Ready g (.elements es c) → s.Keeps g steps
  | .nil, hs => .nil hs.orderly
  | .cons h hs', hs => (h.keeps (hs.turn .element)).append (hs'.keeps (hs.turn (.nextElement h)))
  | .stuck h, hs => h.keeps (hs.turn .element)

theorem RunsFirst.keeps {n : Nat} {es : List Expr} {c : Cursor} {furthest : Nat}
    {steps : List Step} {o : Outcome (Node Unit)} {s : Scene} :
    RunsFirst g n es c furthest steps o → s.Ready g (.alternatives es c) → s.Keeps g steps
  | .nil, hs => .nil hs.orderly
  | .hit h, hs => h.keeps (hs.turn .alternative)
  | .miss h hs', hs =>
    ((h.keeps (hs.turn .alternative)).append (.giveUpSteps hs.orderly _ _ _)).append
      (hs'.keeps (hs.turn (.nextAlternative h)))

theorem RunsMany.keeps {n : Nat} {e : Expr} {bounds : Bounds} {count : Nat} {c : Cursor}
    {steps : List Step} {o : Outcome (List (Node Unit))} {s : Scene} :
    RunsMany g n e bounds count c steps o → s.Ready g (.rounds e bounds count c) →
      s.Keeps g steps
  | .full _, hs => .nil hs.orderly
  | .enough hb h _, hs => h.keeps (hs.turn (.round hb))
  | .tooFew hb h _, hs => h.keeps (hs.turn (.round hb))
  | .idle hb h _, hs => h.keeps (hs.turn (.round hb))
  | .again hb h hshorter hm, hs =>
    (h.keeps (hs.turn (.round hb))).append (hm.keeps (hs.turn (.nextRound hb h hshorter)))

end

variable {n : Nat} {id : RuleId} {c : Cursor} {steps before : List Step}
  {o : Outcome (Node Unit)}

/-- The calls and the rules open at any time of a match. -/
theorem Runs.orderly (h : Runs g n (.rule id) c steps o) (hbefore : before <+: steps) :
    Scene.Orderly g ⟨openCalls before, openRules (eventsOf before)⟩ := by
  have hready : Scene.Ready g (.expr (.rule id) c) ⟨[], []⟩ := ⟨.nil, nofun, .nil⟩
  have hscene := (h.keeps hready).orderly before hbefore
  have hafter : Scene.after ⟨[], []⟩ before
      = ⟨openCalls before, openRules (eventsOf before)⟩ :=
    congrArg₂ Scene.mk (Scene.calls_after _ before) (Scene.rules_after _ before)
  rwa [hafter] at hscene

/-- An open call was made at a position ahead, and it returns. -/
theorem Runs.exists_runs_of_mem_openCalls (h : Runs g n (.rule id) c steps o)
    (hbefore : before <+: steps) {call : OpenCall} (hcall : call ∈ openCalls before) :
    c.Reaches call.cursor ∧
      ∃ k inner o', Runs g k (.rule call.id) call.cursor inner o' :=
  h.soundSteps _ (hbefore.subset (tried_of_mem_openCalls hcall))

/-- **No call is open twice.** Of two calls open at one time the outer has come to the inner. -/
theorem Runs.nodup_openCalls (h : Runs g n (.rule id) c steps o) (hbefore : before <+: steps) :
    ((openCalls before).map OpenCall.key).Nodup := by
  refine List.pairwise_map.mpr ((h.orderly hbefore).nested.imp_of_mem ?_)
  intro inner outer hinner houter hcomes hkey
  obtain ⟨hid, hoffset⟩ := Prod.mk.inj hkey
  obtain ⟨hreach, _⟩ := h.exists_runs_of_mem_openCalls hbefore hinner
  obtain ⟨hreach', k, steps', o', hrun⟩ := h.exists_runs_of_mem_openCalls hbefore houter
  have hcursor := hreach.eq_of_offset_eq hreach' hoffset
  rw [OpenCall.task, OpenCall.task, hid, hcursor] at hcomes
  exact hrun.not_comesTo_self hcomes

/-- There are never more calls open than there are pairs of a rule and a position. -/
theorem Runs.length_openCalls_le (h : Runs g n (.rule id) c steps o) (hbefore : before <+: steps) :
    (openCalls before).length ≤ g.depthLimit c := by
  let place : Fin g.rules.size × Fin (c.rest.length + 1) → OpenCall :=
    fun p => ⟨⟨p.1⟩, c.ahead p.2⟩
  have hnodup : (openCalls before).Nodup := (h.nodup_openCalls hbefore).of_map _
  have hsub : (openCalls before).toFinset ⊆ Finset.univ.image place := by
    intro call hcall
    obtain ⟨hreach, k, inner, o', hrun⟩ :=
      h.exists_runs_of_mem_openCalls hbefore (List.mem_toFinset.mp hcall)
    obtain ⟨j, hj, hcursor⟩ := hreach.exists_ahead
    refine Finset.mem_image.mpr ⟨(⟨call.id.index, hrun.declares⟩, ⟨j, hj⟩), Finset.mem_univ _, ?_⟩
    simp only [place, ← hcursor]
  calc (openCalls before).length
      = (openCalls before).toFinset.card := (List.toFinset_card_of_nodup hnodup).symm
    _ ≤ (Finset.univ.image place).card := Finset.card_le_card hsub
    _ ≤ Fintype.card (Fin g.rules.size × Fin (c.rest.length + 1)) := Finset.card_image_le
    _ = g.depthLimit c := by rw [Fintype.card_prod, Fintype.card_fin, Fintype.card_fin]; rfl

/-- Nor are there more rules open. -/
theorem Runs.length_openRules_le (h : Runs g n (.rule id) c steps o) (hbefore : before <+: steps) :
    (openRules (eventsOf before)).length ≤ g.depthLimit c := by
  have hcalls := h.length_openCalls_le hbefore
  rcases (h.orderly hbefore).shown with hshown | hshown
  · rw [← hshown.length_eq]
    exact hcalls
  · have hlength : (openCalls before).tail.length = (openRules (eventsOf before)).length :=
      hshown.length_eq
    rw [← hlength, List.length_tail]
    omega

end Engine

open Engine

/-- **No call is open twice, and the depth of rules is bounded.**

* Let an attempt of a rule at a position of a text return. At any time of its match, no two of the
  calls open are calls of the same rule at the same position. The rules open, as an observer is told
  of them, are those of the calls open, up to the innermost call, which may not have been entered
  yet or have been left already.
* If a parse returns a tree with statistics, the greatest depth is at most the number of rules times
  the number of positions of the text. -/
theorem no_call_open_twice (g : Grammar) :
    (∀ (text : String) (id : RuleId) (i : Nat) (mode : MatchMode) (o : Outcome (Node Unit)),
      g.attempt id text i mode = .ok o →
      ∃ c n steps, Cursor.at? text.toList i = some c ∧ Runs g n (.rule id) c steps o ∧
        (∀ (σ : Type) (w : Watch σ) (m : Monitor σ),
          (g.matchRule w id c mode).run m = .ok (o, m.replay w steps)) ∧
        ∀ before, before <+: steps →
          ((openCalls before).map OpenCall.key).Nodup ∧
          ∃ calls, (calls = openCalls before ∨ calls = (openCalls before).tail) ∧
            List.Forall₂ (OpenCall.Shows g) calls (openRules (eventsOf before))) ∧
    ∀ (σ : Type) (text : String) (config : ParseConfig) (handle : σ → Event → σ)
      (observer last : σ) (output : ParseOutput), config.collectStats = true →
      g.parseWith text config handle observer = .ok (.ok output, last) →
      output.stats.maxDepth ≤ g.rules.size * (text.length + 1) := by
  constructor
  · intro text id i mode o h
    obtain ⟨-, c, n, steps, hc, hrun⟩ := Grammar.exists_runs_of_attempt h
    refine ⟨c, n, steps, hc, hrun, fun σ w m => matchRule_run_of_runs hrun w mode m,
      fun before hbefore => ⟨hrun.nodup_openCalls hbefore, ?_⟩⟩
    rcases (hrun.orderly hbefore).shown with hshown | hshown
    · exact ⟨_, Or.inl rfl, hshown⟩
    · exact ⟨_, Or.inr rfl, hshown⟩
  · intro σ text config handle observer last output hcount h
    obtain ⟨n, steps, raw, stop, hrun, -, -, hstats⟩ := Grammar.exists_runs_of_conclude h
    obtain ⟨⟨events, hevents, hdepth⟩, -⟩ := Monitor.maxDepth_replay
      (w := ⟨handle, config.collectStats⟩) hcount observer steps
    obtain ⟨before, hbefore, rfl⟩ := List.prefix_filterMap_iff.mp hevents
    calc output.stats.maxDepth
        = (openRules (eventsOf before)).length := by rw [hstats]; exact hdepth.symm
      _ ≤ g.depthLimit (.start text.toList) := hrun.length_openRules_le hbefore
      _ = g.rules.size * (text.length + 1) := by rw [← String.length_toList]; rfl

/-- One or more letters, read from the left. -/
def letterRun : Grammar where
  rules := #[⟨"letters", [.sequence [.literal "a", .rule ⟨0⟩], .literal "a"], nofun⟩]
  start := ⟨0⟩
  valid := rfl

/-- The parse of two letters. -/
def twoLetters : ParseOutput where
  tree := ⟨.branch (.rule "letters") (.of 0 2) [.branch .sequence (.of 0 2) [
    .leaf .literal (.of 0 1) "a",
    .branch (.rule "letters") (.of 1 2) [.leaf .literal (.of 1 2) "a"]]]⟩
  stats := ⟨6, 2, 3, 3⟩

/-- The node of the second letter by itself. -/
def lastLetter : Node Unit := .branch (.rule "letters") (.of 1 2) [.leaf .literal (.of 1 2) ()]

/-- The bound is attained: the only rule is open at every position of the text. -/
theorem letterRun_depth :
    letterRun.parseWith "aa" {} (fun (_ : Unit) _ => ()) () = .ok (.ok twoLetters, ()) ∧
    twoLetters.stats.maxDepth ≤ letterRun.rules.size * ("aa".length + 1) ∧
    twoLetters.stats.maxDepth = letterRun.rules.size * ("aa".length + 1) ∧
    ∃ o c n steps, letterRun.attempt ⟨0⟩ "aa" 1 = .ok o ∧
      Runs letterRun n (.rule ⟨0⟩) c steps o ∧
      ∀ before, before <+: steps → ((openCalls before).map OpenCall.key).Nodup := by
  have hparse : letterRun.parseWith "aa" {} (fun (_ : Unit) _ => ()) ()
      = .ok (.ok twoLetters, ()) := by decide +kernel
  have hattempt : letterRun.attempt ⟨0⟩ "aa" 1 = .ok (.matched lastLetter ⟨2, []⟩) := by
    decide +kernel
  obtain ⟨hopen, hdepth⟩ := no_call_open_twice letterRun
  obtain ⟨c, n, steps, -, hrun, -, hpoint⟩ := hopen _ _ _ _ _ hattempt
  exact ⟨hparse, hdepth _ _ _ _ _ _ _ rfl hparse, by decide, _, c, n, steps, hattempt, hrun,
    fun before hbefore => (hpoint before hbefore).1⟩

end PegGrammar
