import Mathlib.Order.Bounds.Basic
import PegGrammar.Proofs.Conformance
import PegGrammar.Proofs.Nesting
import PegGrammar.Tree.Walk

/-!
# Statistics tell what the events and the tree tell

The counters of a match are kept beside the events, at other places of the engine and under a
condition of their own. They are no second source of truth: whoever has seen the events could have
counted the rules tried and the alternatives given up, and could have found the greatest depth as
the greatest surplus of rules entered over rules left.

The nodes made are not told to anyone. They are compared with the tree: every node of it was made,
and what was made besides belongs to attempts that were given up. If no attempt fails, nothing is
given up, and the two numbers are equal.

## The depth counted twice

The monitor has a depth of its own, which goes up and down with each rule, and the events have the
rules open, `openRules`. Both stop at zero, so they agree on any record of steps (`depth_replay`).
Only the third account, entered less left, needs the record to be that of a match, where no rule is
left that was not entered.

## Main definitions

* `Event.isEnter`, `Event.isExit`, `Event.isBacktrack` — the kinds of event
* `surplus` — rules entered less rules left
* `Engine.nodesMade`, `Engine.FailureFree` — the nodes made in a match, and a match without failures
* `Stats.Tally` — what the counters have to be

## Main results

* `Monitor.maxDepth_replay` — the greatest depth is the greatest number of rules open
* `WellNested.surplus_eq` — which is the surplus of rules entered
* `Engine.Runs.accounts` — nodes of the tree and nodes made
* `parse_statistics_tally` — the counters of a parse
-/

namespace PegGrammar

open Engine

/-! ### Kinds of event -/

namespace Event

/-- Whether a rule is entered. -/
def isEnter : Event → Bool
  | .enter _ _ => true
  | .exit _ _ _ | .backtrack _ _ => false

/-- Whether a rule is left. -/
def isExit : Event → Bool
  | .exit _ _ _ => true
  | .enter _ _ | .backtrack _ _ => false

/-- Whether an alternative is given up. -/
def isBacktrack : Event → Bool
  | .backtrack _ _ => true
  | .enter _ _ | .exit _ _ _ => false

end Event

/-- How many more rules have been entered than left. -/
def surplus (events : List Event) : Int :=
  (events.countP Event.isEnter : Int) - events.countP Event.isExit

theorem surplus_append (events more : List Event) :
    surplus (events ++ more) = surplus events + surplus more := by
  simp only [surplus, List.countP_append, Int.natCast_add]
  omega

/-- Among well-nested events, the rules open at any time are those entered and not left. -/
theorem WellNested.surplus_eq {events before after : List Event} (h : WellNested events)
    (hsplit : events = before ++ after) : surplus before = (openRules before).length := by
  induction before using List.reverseRecOn generalizing after with
  | nil => rfl
  | append_singleton before e ih =>
    rw [List.append_assoc, List.singleton_append] at hsplit
    have hopen : openRules (before ++ [e]) = e.update (openRules before) := List.foldl_append
    rw [surplus_append, ih hsplit, hopen]
    cases e with
    | enter rule position =>
      have hone : surplus [.enter rule position] = 1 := rfl
      rw [hone, Event.update, List.length_cons, Int.natCast_succ]
    | exit rule position success =>
      -- some rule is open to be left, so the number of open rules does go down
      obtain ⟨r, hr, -⟩ := h.inPlace _ _ _ hsplit
      obtain ⟨rest, hrest⟩ := List.head?_eq_some_iff.mp hr
      have hone : surplus [.exit rule position success] = -1 := rfl
      rw [hone, hrest, Event.update, List.tail_cons, List.length_cons, Int.natCast_succ]
      omega
    | backtrack failure restart =>
      have hzero : surplus [.backtrack failure restart] = 0 := rfl
      rw [hzero, Event.update, Int.add_zero]

/-- The numbers of rules open in the course of some events. -/
def depths (events : List Event) : Set Nat :=
  { depth | ∃ before, before <+: events ∧ (openRules before).length = depth }

theorem depths_nil : depths [] = {0} := by
  ext depth
  simp [depths, openRules, eq_comm]

/-- There is one more point of time, after the last event. -/
theorem depths_concat (events : List Event) (e : Event) :
    depths (events ++ [e]) = insert (e.update (openRules events)).length (depths events) := by
  have hlast : openRules (events ++ [e]) = e.update (openRules events) := List.foldl_append
  ext depth
  simp [depths, List.prefix_concat_iff, or_and_right, exists_or, hlast, eq_comm]

theorem isGreatest_depths_concat {events : List Event} {greatest : Nat}
    (h : IsGreatest (depths events) greatest) (e : Event) :
    IsGreatest (depths (events ++ [e])) (max (e.update (openRules events)).length greatest) := by
  rw [depths_concat]
  exact h.insert _

/-! ### What a monitor counts -/

namespace Engine

/-- Whether a node is made. -/
def Step.isMade : Step → Bool
  | .made => true
  | .tried _ _ | .settled _ _ _ | .told _ => false

/-- The number of nodes made. -/
def nodesMade (steps : List Step) : Nat := steps.countP Step.isMade

@[simp] theorem nodesMade_append (steps more : List Step) :
    nodesMade (steps ++ more) = nodesMade steps + nodesMade more :=
  List.countP_append

end Engine

namespace Monitor

variable {σ τ : Type} {w : Watch σ}

/-- Without counting, the statistics stay as they are. -/
theorem stats_replay_of_not_counting (hw : w.counting = false) (m : Monitor σ)
    (steps : List Step) : (m.replay w steps).stats = m.stats := by
  induction steps generalizing m with
  | nil => rfl
  | cons s steps ih =>
    rw [replay_cons, ih]
    rcases s with _ | _ | (_ | _ | _) | _ <;> simp [note, hw]

/-- The statistics do not depend on the observer. -/
theorem stats_replay_congr {w' : Watch τ} (hw : w'.counting = w.counting) {m : Monitor σ}
    {m' : Monitor τ} (hstats : m'.stats = m.stats) (hdepth : m'.depth = m.depth)
    (steps : List Step) : (m'.replay w' steps).stats = (m.replay w steps).stats := by
  induction steps generalizing m m' with
  | nil => exact hstats
  | cons s steps ih =>
    rw [replay_cons, replay_cons]
    apply ih <;> rcases s with _ | _ | (_ | _ | _) | _ <;> simp [note, hw, hstats, hdepth]

/-- What a step adds to each counter but the depth. -/
theorem counters_note (hw : w.counting = true) (m : Monitor σ) (s : Step) :
    (m.note w s).stats.nodesCreated = m.stats.nodesCreated + nodesMade [s] ∧
    (m.note w s).stats.backtracks
      = m.stats.backtracks + (eventsOf [s]).countP Event.isBacktrack ∧
    (m.note w s).stats.ruleAttempts
      = m.stats.ruleAttempts + (eventsOf [s]).countP Event.isEnter := by
  rcases s with _ | _ | (_ | _ | _) | _ <;> simp only [note, hw, if_true] <;>
    exact ⟨rfl, rfl, rfl⟩

/-- **Each counter but the depth** goes up by the number of its occasions. -/
theorem counters_replay (hw : w.counting = true) (m : Monitor σ) (steps : List Step) :
    (m.replay w steps).stats.nodesCreated = m.stats.nodesCreated + nodesMade steps ∧
    (m.replay w steps).stats.backtracks
      = m.stats.backtracks + (eventsOf steps).countP Event.isBacktrack ∧
    (m.replay w steps).stats.ruleAttempts
      = m.stats.ruleAttempts + (eventsOf steps).countP Event.isEnter := by
  induction steps generalizing m with
  | nil => exact ⟨rfl, rfl, rfl⟩
  | cons s steps ih =>
    obtain ⟨hnodes, hbacktracks, hattempts⟩ := ih (m.note w s)
    obtain ⟨hnodes', hbacktracks', hattempts'⟩ := counters_note hw m s
    rw [replay_cons, hnodes, hbacktracks, hattempts, hnodes', hbacktracks', hattempts',
      ← List.singleton_append (l := steps), nodesMade_append, eventsOf_append, List.countP_append,
      List.countP_append]
    omega

/-- The depth of a monitor is the number of rules open. -/
theorem depth_replay (w : Watch σ) (m : Monitor σ) {opened : List OpenRule}
    (hdepth : m.depth = opened.length) (steps : List Step) :
    (m.replay w steps).depth = ((eventsOf steps).foldl Event.update opened).length := by
  induction steps generalizing m opened with
  | nil => exact hdepth
  | cons s steps ih =>
    rw [replay_cons]
    rcases s with _ | _ | (_ | _ | _) | _ <;>
      exact ih _ (by simp [note, Event.update, hdepth])

/-- A step keeps the greatest depth. Only a rule entered can change it, and then the monitor is
as deep as there are rules open. -/
theorem maxDepth_note (hw : w.counting = true) {m : Monitor σ} {events : List Event}
    (hgreatest : IsGreatest (depths events) m.stats.maxDepth)
    (hdepth : m.depth = (openRules events).length) (s : Step) :
    IsGreatest (depths (events ++ eventsOf [s])) (m.note w s).stats.maxDepth := by
  have hnow : (openRules events).length ≤ m.stats.maxDepth :=
    hgreatest.2 ⟨events, List.prefix_rfl, rfl⟩
  have hsilent : IsGreatest (depths (events ++ [])) m.stats.maxDepth := by
    rw [List.append_nil]
    exact hgreatest
  cases s with
  | tried e c => exact hsilent
  | settled e c o => exact hsilent
  | made =>
    simp only [note, hw, if_true]
    exact hsilent
  | told event =>
    have hnext := isGreatest_depths_concat hgreatest event
    cases event with
    | enter rule position =>
      simp only [note, hw, if_true]
      rw [max_comm, Event.update, List.length_cons, ← hdepth] at hnext
      exact hnext
    | exit rule position success =>
      have htail : (openRules events).tail.length ≤ m.stats.maxDepth := by
        rw [List.length_tail]
        omega
      rw [Event.update, max_eq_right htail] at hnext
      exact hnext
    | backtrack failure restart =>
      simp only [note, hw, if_true]
      rw [Event.update, max_eq_right hnow] at hnext
      exact hnext

/-- **The greatest depth** that a monitor has counted is the greatest number of rules open in the
course of the events. -/
theorem maxDepth_replay (hw : w.counting = true) (observer : σ) (steps : List Step) :
    IsGreatest (depths (eventsOf steps))
      (({ observer } : Monitor σ).replay w steps).stats.maxDepth := by
  induction steps using List.reverseRecOn with
  | nil =>
    rw [show eventsOf [] = [] from rfl, depths_nil]
    exact isGreatest_singleton
  | append_singleton steps s ih =>
    rw [eventsOf_append, replay_append]
    exact maxDepth_note hw ih (depth_replay w _ rfl steps) s

end Monitor

/-! ### Nodes of the tree and nodes made -/

theorem Walk.length_toList {α : Type} (w : Walk α) : w.toList.length = Node.sizeAll w.stack := by
  induction w using Walk.stepInduction with
  | done => rw [toList_nil]; rfl
  | visit n stack ih =>
    rw [toList_cons, List.length_cons, ih, sizeAll_stack_of_next? (next?_cons n stack)]

namespace Node

variable {α : Type}

/-- A walk visits as many nodes as the tree has. -/
theorem length_descendants (n : Node α) : n.descendants.length = n.size :=
  Walk.length_toList ⟨[n]⟩

mutual

/-- The number of nodes does not depend on lexemes. -/
theorem size_shape : ∀ n : Node α, n.shape.size = n.size
  | .leaf _ _ _ => rfl
  | .branch _ _ children => by rw [shape, size, size, sizeAll_shapeAll children]

theorem sizeAll_shapeAll : ∀ ns : List (Node α), sizeAll (shapeAll ns) = sizeAll ns
  | [] => rfl
  | n :: ns => by rw [shapeAll, sizeAll, sizeAll, size_shape n, sizeAll_shapeAll ns]

end

end Node

namespace Engine

/-- No attempt on record has failed. -/
def FailureFree (steps : List Step) : Prop :=
  ∀ e c offset, .settled e c (.failed offset) ∉ steps

theorem FailureFree.subset {steps more : List Step} (h : FailureFree more) (hsub : steps ⊆ more) :
    FailureFree steps :=
  fun e c offset hmem => h e c offset (hsub hmem)

/-- The record of a failure has that failure in it. -/
theorem Runs.not_failureFree {g : Grammar} {n : Nat} {e : Expr} {c : Cursor} {steps : List Step}
    {offset : Nat} (h : Runs g n e c steps (.failed offset)) : ¬ FailureFree steps := by
  have hlast : .settled e c (.failed offset) ∈ steps := by
    cases h <;> simp [framed]
  exact fun hclean => hclean e c offset hlast

/-- The steps account for a number of nodes: so many were made at least, and no others if nothing
failed. -/
structure Accounts (steps : List Step) (size : Nat) : Prop where
  /-- The nodes were made. -/
  le_made : size ≤ nodesMade steps
  /-- Others were made only where something failed. -/
  eq_made : FailureFree steps → size = nodesMade steps

namespace Accounts

variable {steps more : List Step} {size others : Nat}

theorem nil : Accounts [] 0 := ⟨Nat.le_refl 0, fun _ => rfl⟩

theorem append (h : Accounts steps size) (hmore : Accounts more others) :
    Accounts (steps ++ more) (size + others) := by
  have hle := h.le_made
  have hle' := hmore.le_made
  constructor
  · rw [nodesMade_append]
    omega
  · intro hclean
    have heq := h.eq_made (hclean.subset (List.subset_append_left _ _))
    have heq' := hmore.eq_made (hclean.subset (List.subset_append_right _ _))
    rw [nodesMade_append]
    omega

/-- The frame of a match makes no node. -/
theorem framed (h : Accounts steps size) (e : Expr) (c stop : Cursor) (node : Node Unit) :
    Accounts (framed e c steps (.matched node stop)) size := by
  have hmade : nodesMade (Engine.framed e c steps (.matched node stop)) = nodesMade steps := by
    simp [Engine.framed, nodesMade, Step.isMade]
  constructor
  · rw [hmade]
    exact h.le_made
  · intro hclean
    rw [hmade]
    exact h.eq_made (hclean.subset (subset_framed (List.Subset.refl _) e c _))

end Accounts

/-- The last step of a combination makes one node for all its parts. -/
theorem accounts_nodeSteps {steps : List Step} {parts : Outcome (List (Node Unit))}
    (h : parts.OnMatch fun nodes _ => Accounts steps (Node.sizeAll nodes)) :
    parts.OnMatch fun nodes _ => Accounts (steps ++ nodeSteps parts) (1 + Node.sizeAll nodes) := by
  cases parts with
  | failed offset => trivial
  | matched nodes stop =>
    rw [Outcome.OnMatch, Nat.add_comm]
    exact h.append ⟨Nat.le_refl 1, fun _ => rfl⟩

/-- A call makes one node for all its parts. -/
theorem accounts_ruleSteps {steps : List Step} {parts : Outcome (List (Node Unit))}
    (h : parts.OnMatch fun nodes _ => Accounts steps (Node.sizeAll nodes)) (name : String)
    (c : Cursor) :
    parts.OnMatch fun nodes _ =>
      Accounts (ruleSteps name c steps parts) (1 + Node.sizeAll nodes) := by
  cases parts with
  | failed offset => trivial
  | matched nodes stop =>
    have henter : Accounts [.told (.enter name c.offset)] 0 := ⟨Nat.le_refl 0, fun _ => rfl⟩
    have hexit : Accounts [.told (.exit name stop.offset true), .made] 1 :=
      ⟨Nat.le_refl 1, fun _ => rfl⟩
    have hcall := (henter.append h).append hexit
    rw [Nat.zero_add, Nat.add_comm] at hcall
    exact hcall

/-- The node of a combination stands for itself and for its parts. -/
theorem accounts_enclose {body : List Step} {parts : Outcome (List (Node Unit))}
    (h : parts.OnMatch fun nodes _ => Accounts body (1 + Node.sizeAll nodes)) (e : Expr)
    (label : Label) (c : Cursor) :
    (parts.enclose label c).OnMatch fun node _ =>
      Accounts (framed e c body (parts.enclose label c)) node.size := by
  cases parts with
  | failed offset => trivial
  | matched nodes stop => exact h.framed e c stop _

theorem accounts_singleton {steps : List Step} {part : Outcome (Node Unit)}
    (h : part.OnMatch fun node _ => Accounts steps node.size) :
    (part.map fun node => [node]).OnMatch fun nodes _ => Accounts steps (Node.sizeAll nodes) := by
  cases part with
  | failed offset => trivial
  | matched node stop => exact h

theorem accounts_cons {first more : List Step} {node : Node Unit}
    {others : Outcome (List (Node Unit))} (h : Accounts first node.size)
    (hs : others.OnMatch fun nodes _ => Accounts more (Node.sizeAll nodes)) :
    (others.map (node :: ·)).OnMatch fun nodes _ =>
      Accounts (first ++ more) (Node.sizeAll nodes) := by
  cases others with
  | failed offset => trivial
  | matched nodes stop => exact h.append hs

/-- What was made for a failed alternative is not in the tree. -/
theorem accounts_after_failure {failed more : List Step} {o : Outcome (Node Unit)}
    (hfailed : ¬ FailureFree failed) (h : o.OnMatch fun node _ => Accounts more node.size) :
    o.OnMatch fun node _ => Accounts (failed ++ more) node.size := by
  cases o with
  | failed offset => trivial
  | matched node stop =>
    have hle : node.size ≤ nodesMade more := Accounts.le_made h
    constructor
    · rw [nodesMade_append]
      omega
    · intro hclean
      exact absurd (hclean.subset (List.subset_append_left _ _)) hfailed

theorem ruleSteps_map {α β : Type} (f : α → β) (name : String) (c : Cursor) (body : List Step)
    (o : Outcome α) : ruleSteps name c body (o.map f) = ruleSteps name c body o := by
  cases o <;> rfl

variable {g : Grammar}

mutual

/-- **The nodes of a match are accounted for** by its steps. -/
theorem Runs.accounts {n : Nat} {e : Expr} {c : Cursor} {steps : List Step}
    {o : Outcome (Node Unit)} :
    Runs g n e c steps o → o.OnMatch fun node _ => Accounts steps node.size
  | .accepted _ ho => by
    subst ho
    exact Accounts.framed ⟨Nat.le_refl 1, fun _ => rfl⟩ _ _ _ _
  | .rejected _ => trivial
  | .sequence h ho => by
    subst ho
    exact accounts_enclose (accounts_nodeSteps h.accounts) _ _ _
  | .choice h ho => by
    subst ho
    rw [← nodeSteps_map fun node => [node]]
    exact accounts_enclose (accounts_nodeSteps (accounts_singleton h.accounts)) _ _ _
  | .repeated h ho => by
    subst ho
    exact accounts_enclose (accounts_nodeSteps h.accounts) _ _ _
  | .rule _ h ho => by
    subst ho
    rw [← ruleSteps_map fun node => [node]]
    exact accounts_enclose (accounts_ruleSteps (accounts_singleton h.accounts) _ _) _ _ _

theorem RunsEach.accounts {n : Nat} {es : List Expr} {c : Cursor} {steps : List Step}
    {o : Outcome (List (Node Unit))} :
    RunsEach g n es c steps o → o.OnMatch fun nodes _ => Accounts steps (Node.sizeAll nodes)
  | .nil => Accounts.nil
  | .cons h hs => accounts_cons h.accounts hs.accounts
  | .stuck _ => trivial

theorem RunsFirst.accounts {n : Nat} {es : List Expr} {c : Cursor} {furthest : Nat}
    {steps : List Step} {o : Outcome (Node Unit)} :
    RunsFirst g n es c furthest steps o → o.OnMatch fun node _ => Accounts steps node.size
  | .nil => trivial
  | .hit h => h.accounts
  | .miss h hs =>
    accounts_after_failure
      (fun hclean => h.not_failureFree (hclean.subset (List.subset_append_left _ _))) hs.accounts

theorem RunsMany.accounts {n : Nat} {e : Expr} {bounds : Bounds} {count : Nat} {c : Cursor}
    {steps : List Step} {o : Outcome (List (Node Unit))} :
    RunsMany g n e bounds count c steps o →
      o.OnMatch fun nodes _ => Accounts steps (Node.sizeAll nodes)
  | .full _ => Accounts.nil
  | .enough _ h _ => ⟨Nat.zero_le _, fun hclean => absurd hclean h.not_failureFree⟩
  | .tooFew _ _ _ => trivial
  | .idle _ h _ => h.accounts
  | .again _ h _ hm => accounts_cons h.accounts hm.accounts

end

end Engine

/-! ### Parses -/

namespace Grammar

/-- Only a match has a tree, which is that of its node, and the statistics come along. -/
theorem exists_node_of_conclude {text : List Char} {config : ParseConfig} {stats : Stats}
    {o : Outcome (Node Unit)} {output : ParseOutput}
    (h : conclude text config stats o = .ok (.ok output)) :
    ∃ node stop, o = .matched node stop ∧ node.withLexemes text = .ok output.tree.root ∧
      output.stats = stats := by
  cases o with
  | failed offset =>
    rw [conclude] at h
    cases herr : ParseError.ofFailure text offset <;> rw [herr] at h <;> cases h
  | matched node stop =>
    rw [conclude] at h
    split at h
    · cases herr : ParseError.ofRemainder text stop.offset <;> rw [herr] at h <;> cases h
    · cases hroot : node.withLexemes text with
      | error fault =>
        rw [SyntaxTree.ofMatch, hroot] at h
        cases h
      | ok root =>
        rw [SyntaxTree.ofMatch, hroot] at h
        cases h
        exact ⟨node, stop, rfl, hroot, rfl⟩

/-- The match behind a tree, and where the statistics come from. -/
theorem exists_runs_of_conclude {σ : Type} {g : Grammar} {text : String} {config : ParseConfig}
    {handle : σ → Event → σ} {observer last : σ} {output : ParseOutput}
    (h : g.parseWith text config handle observer = .ok (.ok output, last)) :
    ∃ n steps raw stop,
      Runs g n (.rule g.start) (.start text.toList) steps (.matched raw stop) ∧
      conclude text.toList config (finalMonitor config handle observer steps).stats
        (.matched raw stop) = .ok (.ok output) ∧
      raw.withLexemes text.toList = .ok output.tree.root ∧
      output.stats = (finalMonitor config handle observer steps).stats := by
  have hlen := byteLength_le_of_parseWith h
  obtain ⟨n, steps, o, hrun⟩ := exists_runs_of_parseWith_eq_ok h
  have hconclude : conclude text.toList config
      (finalMonitor config handle observer steps).stats o = .ok (.ok output) := by
    rw [parseWith_eq hlen hrun] at h
    cases hresult : conclude text.toList config
        (finalMonitor config handle observer steps).stats o with
    | error fault => rw [hresult] at h; cases h
    | ok result => rw [hresult] at h; cases h; rfl
  obtain ⟨raw, stop, rfl, hroot, hstats⟩ := exists_node_of_conclude hconclude
  exact ⟨n, steps, raw, stop, hrun, hconclude, hroot, hstats⟩

end Grammar

/-- The events of a call are well nested. -/
theorem Engine.Runs.wellNested {g : Grammar} {n : Nat} {id : RuleId} {c : Cursor}
    {steps : List Step} {o : Outcome (Node Unit)} (h : Runs g n (.rule id) c steps o) :
    WellNested (eventsOf steps) := by
  cases h with
  | rule _ hbody _ =>
    rw [eventsOf_framed, eventsOf_ruleSteps]
    exact (hbody.nested (Nat.le_refl _)).wellNested_call
      (offset_le_position (hbody.inReach (Cursor.reachesOffset_self _)))

/-- What the statistics of a match have to be, if its steps and its tree are these. -/
structure Stats.Tally (stats : Stats) (steps : List Step) (tree : SyntaxTree) : Prop where
  /-- As many rules were tried as the observer was told. -/
  ruleAttempts_eq : stats.ruleAttempts = (eventsOf steps).countP Event.isEnter
  /-- As many alternatives were given up as the observer was told. -/
  backtracks_eq : stats.backtracks = (eventsOf steps).countP Event.isBacktrack
  /-- The greatest depth is the greatest surplus of rules entered at any time. -/
  maxDepth_isGreatest :
    IsGreatest { d | ∃ before, before <+: eventsOf steps ∧ surplus before = d }
      (stats.maxDepth : Int)
  /-- Every node of the tree was made. -/
  size_le : tree.root.descendants.length ≤ stats.nodesCreated
  /-- If nothing failed, no other node was made. -/
  size_eq : FailureFree steps → tree.root.descendants.length = stats.nodesCreated

/-- The greatest number of rules open is the greatest surplus of rules entered. -/
theorem WellNested.isGreatest_surplus {events : List Event} (h : WellNested events) {greatest : Nat}
    (hgreatest : IsGreatest (depths events) greatest) :
    IsGreatest { d | ∃ before, before <+: events ∧ surplus before = d } (greatest : Int) := by
  have hsurplus : ∀ before, before <+: events → surplus before = (openRules before).length := by
    rintro before ⟨after, hsplit⟩
    exact h.surplus_eq hsplit.symm
  obtain ⟨⟨before, hbefore, hlength⟩, hbound⟩ := hgreatest
  constructor
  · exact ⟨before, hbefore, by rw [hsurplus before hbefore, hlength]⟩
  · rintro _ ⟨before, hbefore, rfl⟩
    rw [hsurplus before hbefore]
    exact Int.ofNat_le.mpr (hbound ⟨before, hbefore, rfl⟩)

/-- **The statistics of a parse tell what its events and its tree tell.** Let a parse return a
tree, as configured in any way and watched by any observer. There is a match behind it, and every
observer is told the events of that match and gets the same tree with the same statistics.

* If statistics are kept, they are the tally of the match: rules entered, alternatives given up,
  the greatest surplus of rules entered over rules left after any part of the events, and at least
  the nodes of the tree, exactly these if no attempt failed.
* If statistics are not kept, all of them are zero. -/
theorem parse_statistics_tally {σ : Type} {g : Grammar} {text : String} {config : ParseConfig}
    {handle : σ → Event → σ} {observer last : σ} {output : ParseOutput}
    (h : g.parseWith text config handle observer = .ok (.ok output, last)) :
    ∃ n steps raw stop,
      Runs g n (.rule g.start) (.start text.toList) steps (.matched raw stop) ∧
      (∀ (τ : Type) (handle' : τ → Event → τ) (observer' : τ),
        g.parseWith text config handle' observer'
          = .ok (.ok output, (eventsOf steps).foldl handle' observer')) ∧
      (config.collectStats = true → output.stats.Tally steps output.tree) ∧
      (config.collectStats = false → output.stats = ⟨0, 0, 0, 0⟩) := by
  have hlen := Grammar.byteLength_le_of_parseWith h
  obtain ⟨n, steps, raw, stop, hrun, hconclude, hroot, hstats⟩ :=
    Grammar.exists_runs_of_conclude h
  refine ⟨n, steps, raw, stop, hrun, fun τ handle' observer' => ?_, fun hcount => ?_,
    fun hcount => ?_⟩
  · have hsame : (Grammar.finalMonitor config handle' observer' steps).stats
        = (Grammar.finalMonitor config handle observer steps).stats := by
      apply Monitor.stats_replay_congr <;> rfl
    rw [Grammar.parseWith_eq hlen hrun, hsame, hconclude, Grammar.finalMonitor,
      Monitor.observer_replay]
    rfl
  · obtain ⟨hnodes, hbacktracks, hattempts⟩ := Monitor.counters_replay
      (w := ⟨handle, config.collectStats⟩) hcount { observer } steps
    have hgreatest := Monitor.maxDepth_replay
      (w := ⟨handle, config.collectStats⟩) hcount observer steps
    have haccounts : Accounts steps raw.size := hrun.accounts
    have hsize : output.tree.root.descendants.length = raw.size := by
      rw [Node.length_descendants, ← Node.size_shape, Node.shape_withLexemes hroot]
    rw [hstats, Grammar.finalMonitor]
    refine ⟨?_, ?_, hrun.wellNested.isGreatest_surplus hgreatest, ?_, fun hclean => ?_⟩
    · rw [hattempts, Nat.zero_add]
    · rw [hbacktracks, Nat.zero_add]
    · rw [hnodes, hsize, Nat.zero_add]
      exact haccounts.le_made
    · rw [hnodes, hsize, Nat.zero_add]
      exact haccounts.eq_made hclean
  · rw [hstats]
    exact Monitor.stats_replay_of_not_counting hcount _ steps

/-- The tree of a word without a mark. -/
def bareGreeting : SyntaxTree where
  root := .branch (.rule "greeting") (.of 0 1) [
    .branch (.rule "word") (.of 0 1) [.leaf .literal (.of 0 1) "h"]]

/-- The tree of a word with a mark. -/
def fullGreeting : SyntaxTree where
  root := .branch (.rule "greeting") (.of 0 4) [.branch .sequence (.of 0 4) [
    .branch (.rule "word") (.of 0 3) [.leaf .literal (.of 0 3) "hé"],
    .leaf .literal (.of 3 4) "!"]]

/-- Five nodes are made for the three of a word without a mark, because the word is matched twice.
For a word with a mark nothing fails, and no node is made in vain. -/
theorem greeting_statistics_tally :
    (greeting.parseWith "h" {} (fun (_ : Unit) _ => ()) ()
        = .ok (.ok ⟨bareGreeting, ⟨5, 3, 3, 2⟩⟩, ()) ∧
      bareGreeting.root.descendants.length = 3 ∧
      ∃ steps, Stats.Tally ⟨5, 3, 3, 2⟩ steps bareGreeting) ∧
    (greeting.parseWith "hé!" {} (fun (_ : Unit) _ => ()) ()
        = .ok (.ok ⟨fullGreeting, ⟨5, 0, 2, 2⟩⟩, ()) ∧
      fullGreeting.root.descendants.length = 5 ∧
      ∃ steps, FailureFree steps ∧ Stats.Tally ⟨5, 0, 2, 2⟩ steps fullGreeting) := by
  have hbare : greeting.parseWith "h" {} (fun (_ : Unit) _ => ()) ()
      = .ok (.ok ⟨bareGreeting, ⟨5, 3, 3, 2⟩⟩, ()) := by decide +kernel
  have hfull : greeting.parseWith "hé!" {} (fun (_ : Unit) _ => ()) ()
      = .ok (.ok ⟨fullGreeting, ⟨5, 0, 2, 2⟩⟩, ()) := by decide +kernel
  obtain ⟨-, steps, -, -, -, -, htally, -⟩ := parse_statistics_tally hbare
  obtain ⟨n, steps', raw, stop, hrun, -, htally', -⟩ := parse_statistics_tally hfull
  refine ⟨⟨hbare, Node.length_descendants _, steps, htally rfl⟩, hfull, Node.length_descendants _,
    steps', ?_, htally' rfl⟩
  have hword : (Terminal.literal "hé").accept? (.start "hé!".toList) = some ⟨3, ['!']⟩ := by
    decide +kernel
  have hmark : (Terminal.literal "!").accept? ⟨3, ['!']⟩ = some ⟨4, []⟩ := by decide +kernel
  have hcourse : Runs greeting 2 (.rule greeting.start) (.start "hé!".toList) _ _ :=
    .rule rfl (.hit (.sequence (.cons (.rule rfl (.hit (.accepted hword rfl)) rfl)
      (.cons (.accepted hmark rfl) .nil)) rfl)) rfl
  obtain ⟨rfl, -⟩ := hcourse.unique hrun
  simp [FailureFree, framed, ruleSteps]

end PegGrammar
