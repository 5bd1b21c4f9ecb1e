import Mathlib.Order.Bounds.Basic
import PegGrammar.Proofs.Conformance
import PegGrammar.Proofs.RecognitionRuns
import PegGrammar.Proofs.Rewriting
import PegGrammar.Proofs.Termination

/-!
# Failures are put down to terminals

A failed match returns one offset. In the end it is always a terminal that does not accept the
text, but a failure is made of many such rejections: some of them are what the failure is put down
to, and others were got over on the way. `Blames` says which are which, on the semantics of
expressions and without an engine. The offset of a failure is the greatest one that is blamed.

## What is got over

An expression that matches blames nothing (`not_blames_of_ends`), however many terminals were
rejected inside it: in the last round of a `*`, in a `?`, or in the alternatives before the one
that was taken. So these rejections are left out wherever the match goes on behind them, even if
they are further on than everything that is blamed.

## Why the offset is attained

A choice starts its search for the greatest offset at its own position, which no terminal need have
been tried at. That the position is never the answer by itself is due to the alternatives: there is
at least one of them, since a grammar with an empty choice is not built.

## Main definitions

* `Blames` — the terminals to which the failure of an expression is put down
* `Grammar.CanTry` — the terminals in the rules that a rule refers to, directly or not
* `Engine.Locates` — an offset that is the greatest one blamed, with the attempts on record

## Main results

* `Blames.fails`, `not_blames_of_ends` — only failures are put down to something
* `Blames.canTry` — and only to what the rule can come to
* `Engine.Runs.locates` — the offset of a failed match
* `failure_offset_rightmost_blame` — the offset of a failed attempt
-/

namespace PegGrammar

open Engine Relation

/-! ### Blame -/

/-- The failure of the expression at an offset is put down, among others, to the terminal `t`,
which does not accept the text at the offset `k`. -/
inductive Blames (g : Grammar) (text : List Char) :
    Expr → Nat → Terminal → Nat → Prop
  /-- A terminal is to blame for its own failure. -/
  | terminal {t : Terminal} {i : Nat} : (∀ j, ¬ t.Accepts text i j) →
    Blames g text (.terminal t) i t i
  /-- A sequence fails as its first failing element does, where those before it end. -/
  | sequence {before after : List Expr} {e : Expr} {i j k : Nat} {t : Terminal} :
    Recognizes g text (.sequence before) i (.ends j) → Blames g text e j t k →
    Blames g text (.sequence (before ++ e :: after)) i t k
  /-- A choice that fails does so as each of its alternatives does. -/
  | choice {es : List Expr} {e : Expr} {i k : Nat} {t : Terminal} :
    Recognizes g text (.choice es) i .fails → e ∈ es → Blames g text e i t k →
    Blames g text (.choice es) i t k
  /-- `e+` fails as `e` does. -/
  | plus {e : Expr} {i k : Nat} {t : Terminal} : Blames g text e i t k →
    Blames g text (.repeated e .oneToMany) i t k
  /-- A rule fails as the choice between its alternatives does. -/
  | rule {id : RuleId} {r : Rule} {i k : Nat} {t : Terminal} : g.rule? id = some r →
    Blames g text (.choice r.alternatives) i t k → Blames g text (.rule id) i t k

section Blames

variable {g : Grammar} {text : List Char} {e : Expr} {es before after : List Expr} {i j k : Nat}
  {t : Terminal}

/-- A sequence fails where the elements before some failing element end. -/
theorem Recognizes.sequence_append_fails (hb : Recognizes g text (.sequence before) i (.ends j))
    (h : Recognizes g text e j .fails) :
    Recognizes g text (.sequence (before ++ e :: after)) i .fails := by
  induction before generalizing i with
  | nil =>
    cases hb
    exact .sequence_fails h
  | cons b before ih =>
    cases hb with
    | sequence_cons hhead htail => exact .sequence_cons hhead (ih htail)

/-- **Only failures are put down to something.** -/
theorem Blames.fails (h : Blames g text e i t k) : Recognizes g text e i .fails := by
  induction h with
  | terminal h => exact .rejects h
  | sequence hb _ ih => exact hb.sequence_append_fails ih
  | choice hfails _ _ _ => exact hfails
  | plus _ ih => exact .plus_fails ih
  | rule hr _ ih => exact .rule hr ih

/-- What is blamed does not accept the text where it is blamed. -/
theorem Blames.not_accepts (h : Blames g text e i t k) : ∀ j, ¬ t.Accepts text k j := by
  induction h with
  | terminal h => exact h
  | sequence _ _ ih => exact ih
  | choice _ _ _ ih => exact ih
  | plus _ ih => exact ih
  | rule _ _ ih => exact ih

/-! ### Blame, one form at a time -/

theorem blames_terminal_iff {t' : Terminal} :
    Blames g text (.terminal t') i t k ↔ (∀ j, ¬ t'.Accepts text i j) ∧ t = t' ∧ k = i := by
  constructor
  · rintro ⟨h⟩
    exact ⟨h, rfl, rfl⟩
  · rintro ⟨h, rfl, rfl⟩
    exact .terminal h

theorem blames_sequence_cons_iff :
    Blames g text (.sequence (e :: es)) i t k ↔
      Blames g text e i t k ∨
        ∃ j, Recognizes g text e i (.ends j) ∧ Blames g text (.sequence es) j t k := by
  constructor
  · intro h
    generalize hsplit : e :: es = elements at h
    cases h with
    | @sequence before after stuck _ j _ _ hb h =>
      rcases List.cons_eq_append_iff.mp hsplit with ⟨rfl, hhead⟩ | ⟨tail, rfl, rfl⟩
      · cases hhead
        cases hb
        exact Or.inl h
      · cases hb with
        | sequence_cons hhead htail => exact Or.inr ⟨_, hhead, .sequence htail h⟩
  · rintro (h | ⟨j, hhead, h⟩)
    · have hnil : Blames g text (.sequence ([] ++ e :: es)) i t k := .sequence .sequence_nil h
      exact hnil
    · cases h with
      | @sequence before after stuck _ j' _ _ hb h =>
        have hcons : Blames g text (.sequence ((e :: before) ++ stuck :: after)) i t k :=
          .sequence (.sequence_cons hhead hb) h
        exact hcons

theorem blames_choice_iff (hfails : Recognizes g text (.choice es) i .fails) :
    Blames g text (.choice es) i t k ↔ ∃ e ∈ es, Blames g text e i t k := by
  constructor
  · rintro (_ | _ | ⟨_, he, h⟩)
    exact ⟨_, he, h⟩
  · rintro ⟨e, he, h⟩
    exact .choice hfails he h

theorem blames_plus_iff :
    Blames g text (.repeated e .oneToMany) i t k ↔ Blames g text e i t k := by
  constructor
  · rintro ⟨⟩
    assumption
  · exact .plus

theorem blames_rule_iff {id : RuleId} {r : Rule} (hr : g.rule? id = some r) :
    Blames g text (.rule id) i t k ↔ Blames g text (.choice r.alternatives) i t k := by
  constructor
  · intro h
    cases h with
    | rule hr' h =>
      cases hr.symm.trans hr'
      exact h
  · exact .rule hr

/-! ### Terminals that a rule can come to -/

/-- The terminal stands in an alternative of the rule or of one that it refers to, directly or
through others. -/
def Grammar.CanTry (g : Grammar) (id : RuleId) (t : Terminal) : Prop :=
  ∃ s r e, Reachable g id s ∧ g.rule? s = some r ∧ e ∈ r.alternatives ∧ .terminal t ∈ e.preorder

/-- What is blamed stands in the expression or in a rule that the expression can come to. -/
theorem Blames.mem_preorder_or (h : Blames g text e i t k) :
    .terminal t ∈ e.preorder ∨ ∃ s ∈ e.refs, g.CanTry s t := by
  induction h with
  | terminal _ => exact Or.inl (List.mem_singleton.mpr rfl)
  | @sequence before after e _ _ _ _ _ _ ih =>
    have he : e ∈ before ++ e :: after := List.mem_append_right _ List.mem_cons_self
    rcases ih with hmem | ⟨s, hs, htry⟩
    · exact Or.inl (Expr.preorder_subset_sequence he hmem)
    · exact Or.inr ⟨s, mem_refsAll_iff.mpr ⟨e, he, hs⟩, htry⟩
  | @choice es e _ _ _ _ he _ ih =>
    rcases ih with hmem | ⟨s, hs, htry⟩
    · exact Or.inl (Expr.preorder_subset_choice he hmem)
    · exact Or.inr ⟨s, mem_refsAll_iff.mpr ⟨e, he, hs⟩, htry⟩
  | @plus e _ _ _ _ ih =>
    rcases ih with hmem | hrefs
    · exact Or.inl (Expr.preorder_subset_repeated e _ hmem)
    · exact Or.inr hrefs
  | @rule id r _ _ t hr _ ih =>
    refine Or.inr ⟨id, List.mem_singleton.mpr rfl, ?_⟩
    rcases ih with hmem | ⟨s, hs, s', r', e', hreach, hr', he', hmem⟩
    · rw [Expr.preorder, Expr.preorderAll_eq_flatMap] at hmem
      rcases List.mem_cons.mp hmem with hself | hmem
      · cases hself
      · obtain ⟨e, he, hmem⟩ := List.mem_flatMap.mp hmem
        exact ⟨id, r, e, .refl, hr, he, hmem⟩
    · exact ⟨s', r', e', hreach.head ⟨r, hr, hs⟩, hr', he', hmem⟩

/-- **A failing rule is put down to terminals that it can come to.** -/
theorem Blames.canTry {id : RuleId} (h : Blames g text (.rule id) i t k) : g.CanTry id t := by
  rcases h.mem_preorder_or with hmem | ⟨s, hs, htry⟩
  · cases List.mem_singleton.mp hmem
  · rw [List.mem_singleton.mp hs] at htry
    exact htry

end Blames

/-! ### The offset of a failed match -/

/-- What failed has a property. Matches have no offset of a failure. -/
def Outcome.OnFailure {α : Type} (Q : Nat → Prop) : Outcome α → Prop
  | .matched _ _ => True
  | .failed offset => Q offset

theorem Outcome.onFailure_map {α β : Type} {Q : Nat → Prop} (f : α → β) {o : Outcome α} :
    (o.map f).OnFailure Q ↔ o.OnFailure Q := by
  cases o <;> rfl

theorem Outcome.onFailure_enclose {Q : Nat → Prop} {label : Label} {c : Cursor}
    {o : Outcome (List (Node Unit))} : (o.enclose label c).OnFailure Q ↔ o.OnFailure Q := by
  cases o <;> rfl

theorem Outcome.OnFailure.imp {α : Type} {P Q : Nat → Prop} {o : Outcome α}
    (h : o.OnFailure P) (hPQ : ∀ k, o = .failed k → P k → Q k) : o.OnFailure Q := by
  cases o with
  | matched value stop => trivial
  | failed offset => exact hPQ offset rfl h

namespace Engine

variable {g : Grammar} {text : List Char}

/-- At every cursor of the text, an expression has no other verdict than the one it comes to. -/
theorem Runs.recognizes_iff {n : Nat} {e : Expr} {c : Cursor} {steps : List Step}
    {o : Outcome (Node Unit)} (h : Runs g n e c steps o) (hc : (Cursor.start text).Reaches c)
    {v : Verdict} : Recognizes g text e c.offset v ↔ v = o.verdict := by
  constructor
  · intro hv
    obtain ⟨n', steps', o', h', rfl⟩ := (recognizes_iff_yields hc).mp hv
    rw [(h.unique h').2]
  · rintro rfl
    exact h.recognizes hc

/-- The attempt of the terminal at that offset is on record as failed. -/
def Rejected (steps : List Step) (t : Terminal) (k : Nat) : Prop :=
  ∃ d, d.offset = k ∧ .settled (.terminal t) d (.failed k) ∈ steps

/-- The offset is the greatest of those at which something is blamed, and all that is blamed is on
record. -/
structure Locates (blames : Terminal → Nat → Prop) (steps : List Step) (offset : Nat) : Prop where
  /-- It is blamed, and nothing further on is. -/
  greatest : IsGreatest { k | ∃ t, blames t k } offset
  /-- What is blamed has been tried. -/
  rejected : ∀ t k, blames t k → Rejected steps t k

theorem Locates.congr {blames blames' : Terminal → Nat → Prop} {steps more : List Step}
    {offset : Nat} (h : Locates blames steps offset) (hiff : ∀ t k, blames' t k ↔ blames t k)
    (hsub : steps ⊆ more) : Locates blames' more offset := by
  constructor
  · simp only [hiff]
    exact h.greatest
  · intro t k hblames
    obtain ⟨d, hd, hmem⟩ := h.rejected t k ((hiff t k).mp hblames)
    exact ⟨d, hd, hsub hmem⟩

/-- A combination fails at the offset at which its parts fail. -/
theorem onFailure_enclose_framed {blames : Terminal → Nat → Prop} {inner body : List Step}
    {parts : Outcome (List (Node Unit))} (h : parts.OnFailure (Locates blames inner))
    (hsub : inner ⊆ body) (e : Expr) (label : Label) (c : Cursor) :
    (parts.enclose label c).OnFailure
      (Locates blames (framed e c body (parts.enclose label c))) := by
  refine Outcome.onFailure_enclose.mpr (h.imp fun k _ hk => ?_)
  exact hk.congr (fun _ _ => Iff.rfl) (subset_framed hsub e c _)

/-- The same for the alternatives of a choice, where the search for the greatest offset starts at
`furthest`. -/
structure LocatesAny (g : Grammar) (text : List Char) (es : List Expr) (i furthest : Nat)
    (steps : List Step) (offset : Nat) : Prop where
  /-- It is the greatest of those at which something is blamed and the one to start with. -/
  greatest : IsGreatest (insert furthest { k | ∃ t, ∃ e ∈ es, Blames g text e i t k }) offset
  /-- What is blamed has been tried. -/
  rejected : ∀ t k, (∃ e ∈ es, Blames g text e i t k) → Rejected steps t k
  /-- Something is blamed if there is an alternative. -/
  nonempty : es ≠ [] → { k | ∃ t, ∃ e ∈ es, Blames g text e i t k }.Nonempty

section Parts

variable {n : Nat} {e : Expr} {es : List Expr} {c stop : Cursor} {first more steps : List Step}
  {node : Node Unit} {furthest offset k : Nat}

/-- A terminal that does not accept the text is put down to itself, where it was tried. -/
theorem Locates.terminal {t : Terminal} (h : t.accept? c = none)
    (hc : (Cursor.start text).Reaches c) :
    Locates (Blames g text (.terminal t) c.offset)
      (framed (.terminal t) c [] (.failed c.offset)) c.offset := by
  have hnot : ∀ j, ¬ t.Accepts text c.offset j := by
    intro j hj
    obtain ⟨stop, hstop, -⟩ := (Terminal.accepts_iff hc).mp hj
    rw [h] at hstop
    cases hstop
  refine ⟨⟨⟨t, .terminal hnot⟩, ?_⟩, ?_⟩
  · rintro k ⟨t', hblames⟩
    obtain ⟨-, -, rfl⟩ := blames_terminal_iff.mp hblames
    exact Nat.le_refl _
  · intro t' k hblames
    obtain ⟨-, rfl, rfl⟩ := blames_terminal_iff.mp hblames
    exact ⟨c, rfl, List.mem_append_right _ (List.mem_singleton.mpr rfl)⟩

/-- A sequence whose first element matches is put down to what the others are put down to. -/
theorem Locates.sequence_cons (h : Runs g n e c first (.matched node stop))
    (hc : (Cursor.start text).Reaches c)
    (hs : Locates (Blames g text (.sequence es) stop.offset) more k) :
    Locates (Blames g text (.sequence (e :: es)) c.offset) (first ++ more) k := by
  refine hs.congr (fun t j => ?_) (List.subset_append_right _ _)
  rw [blames_sequence_cons_iff]
  constructor
  · rintro (hhead | ⟨j', hends, hrest⟩)
    · cases (h.recognizes_iff hc).mp hhead.fails
    · cases (h.recognizes_iff hc).mp hends
      exact hrest
  · intro hrest
    exact Or.inr ⟨_, h.recognizes hc, hrest⟩

/-- A sequence whose first element fails is put down to what that element is put down to. -/
theorem Locates.sequence_stuck (h : Runs g n e c first (.failed offset))
    (hc : (Cursor.start text).Reaches c)
    (hs : Locates (Blames g text e c.offset) first k) :
    Locates (Blames g text (.sequence (e :: es)) c.offset) first k := by
  refine hs.congr (fun t j => ?_) (List.Subset.refl _)
  rw [blames_sequence_cons_iff]
  constructor
  · rintro (hhead | ⟨j', hends, -⟩)
    · exact hhead
    · cases (h.recognizes_iff hc).mp hends
  · exact Or.inl

theorem LocatesAny.nil : LocatesAny g text [] c.offset furthest [] furthest := by
  have hempty : { k | ∃ t, ∃ e ∈ ([] : List Expr), Blames g text e c.offset t k } = ∅ := by
    simp
  constructor
  · rw [hempty, insert_empty_eq]
    exact isGreatest_singleton
  · rintro t k ⟨e, he, -⟩
    exact absurd he List.not_mem_nil
  · exact fun hne => absurd rfl hne

/-- The greatest offset is carried from one alternative to the next. -/
theorem LocatesAny.cons (h : Locates (Blames g text e c.offset) first offset)
    (hs : LocatesAny g text es c.offset (max furthest offset) more k) (giveUp : List Step) :
    LocatesAny g text (e :: es) c.offset furthest (first ++ giveUp ++ more) k := by
  obtain ⟨⟨t, ht⟩, hbound⟩ := h.greatest
  have hk : max furthest offset ≤ k := hs.greatest.2 (Set.mem_insert _ _)
  refine ⟨⟨?_, ?_⟩, ?_, fun _ => ⟨offset, t, e, List.mem_cons_self, ht⟩⟩
  · rcases hs.greatest.1 with hmax | ⟨t', e', he', hblames⟩
    · rcases max_choice furthest offset with hchoice | hchoice
      · exact Or.inl (hmax.trans hchoice)
      · exact Or.inr ⟨t, e, List.mem_cons_self, (hmax.trans hchoice) ▸ ht⟩
    · exact Or.inr ⟨t', e', List.mem_cons_of_mem _ he', hblames⟩
  · rintro j (rfl | ⟨t', e', he', hblames⟩)
    · omega
    · rcases List.mem_cons.mp he' with rfl | he'
      · have hj : j ≤ offset := hbound ⟨t', hblames⟩
        omega
      · exact hs.greatest.2 (Or.inr ⟨t', e', he', hblames⟩)
  · rintro t' j ⟨e', he', hblames⟩
    rcases List.mem_cons.mp he' with rfl | he'
    · obtain ⟨d, hd, hmem⟩ := h.rejected t' j hblames
      exact ⟨d, hd, List.mem_append_left _ (List.mem_append_left _ hmem)⟩
    · obtain ⟨d, hd, hmem⟩ := hs.rejected t' j ⟨e', he', hblames⟩
      exact ⟨d, hd, List.mem_append_right _ hmem⟩

/-- The position of a choice is not its answer unless something is blamed there. -/
theorem LocatesAny.choice (h : LocatesAny g text es c.offset c.offset steps k)
    (hfirst : RunsFirst g n es c c.offset steps (.failed k))
    (hc : (Cursor.start text).Reaches c) (hne : es ≠ []) :
    Locates (Blames g text (.choice es) c.offset) steps k := by
  have hfails : Recognizes g text (.choice es) c.offset .fails := hfirst.recognizes hc
  have hlocates : Locates (fun t k => ∃ e ∈ es, Blames g text e c.offset t k) steps k := by
    refine ⟨⟨?_, fun j hj => h.greatest.2 (Or.inr hj)⟩, h.rejected⟩
    rcases h.greatest.1 with rfl | hmem
    · -- something is blamed, not behind the position and not further on than it
      obtain ⟨j, t, e, he, hblames⟩ := h.nonempty hne
      obtain ⟨d, hd, hmem⟩ := h.rejected t j ⟨e, he, hblames⟩
      have hle : c.offset ≤ j := hd ▸ (hfirst.soundSteps _ hmem).1.offset_le
      have hge : j ≤ c.offset := h.greatest.2 (Or.inr ⟨t, e, he, hblames⟩)
      exact ⟨t, e, he, Nat.le_antisymm hge hle ▸ hblames⟩
    · exact hmem
  exact hlocates.congr (fun t j => blames_choice_iff hfails) (List.Subset.refl _)

end Parts

mutual

/-- **The offset of a failed match** is the greatest one blamed. -/
theorem Runs.locates {n : Nat} {e : Expr} {c : Cursor} {steps : List Step}
    {o : Outcome (Node Unit)} :
    Runs g n e c steps o → (Cursor.start text).Reaches c → e.Fits g.rules.size →
      o.OnFailure (Locates (Blames g text e c.offset) steps)
  | .accepted _ ho, _, _ => by
    subst ho
    trivial
  | .rejected h, hc, _ => Locates.terminal h hc
  | .sequence h ho, hc, hfits => by
    subst ho
    exact onFailure_enclose_framed (h.locates hc (Expr.fits_sequence_iff.mp hfits).2)
      (List.subset_append_left _ _) _ _ _
  | .choice h ho, hc, hfits => by
    subst ho
    obtain ⟨hne, hall⟩ := Expr.fits_choice_iff.mp hfits
    have hparts := (h.locates hc hall).imp fun k hpart hk => hk.choice (hpart ▸ h) hc hne
    exact onFailure_enclose_framed ((Outcome.onFailure_map _).mpr hparts)
      (List.subset_append_left _ _) _ _ _
  | @Runs.repeated _ _ _ bounds _ _ _ _ h ho, hc, hfits => by
    subst ho
    refine onFailure_enclose_framed ((h.locates hc (Expr.fits_repeated_iff.mp hfits)).imp ?_)
      (List.subset_append_left _ _) _ _ _
    rintro k - ⟨hmin, hk⟩
    -- only one of the three bounds needs a match
    cases bounds with
    | zeroToOne => exact absurd hmin (Nat.lt_irrefl 0)
    | zeroToMany => exact absurd hmin (Nat.lt_irrefl 0)
    | oneToMany => exact hk.congr (fun _ _ => blames_plus_iff) (List.Subset.refl _)
  | .rule (r := r) hr h ho, hc, _ => by
    subst ho
    have hparts := (h.locates hc (Grammar.fits_of_rule? hr)).imp fun k hpart hk =>
      (hk.choice (hpart ▸ h) hc r.alternatives_ne_nil).congr (fun _ _ => blames_rule_iff hr)
        (List.Subset.refl _)
    refine onFailure_enclose_framed ((Outcome.onFailure_map _).mpr hparts) ?_ _ _ _
    exact List.subset_append_of_subset_left _ (List.subset_cons_self _ _)

theorem RunsEach.locates {n : Nat} {es : List Expr} {c : Cursor} {steps : List Step}
    {o : Outcome (List (Node Unit))} :
    RunsEach g n es c steps o → (Cursor.start text).Reaches c →
      (∀ e ∈ es, e.Fits g.rules.size) →
      o.OnFailure (Locates (Blames g text (.sequence es) c.offset) steps)
  | .nil, _, _ => trivial
  | .cons h hs, hc, hfits => by
    have hrest := hs.locates (hc.trans h.inReach) (List.forall_mem_cons.mp hfits).2
    exact (Outcome.onFailure_map _).mpr (hrest.imp fun k _ hk => hk.sequence_cons h hc)
  | .stuck h, hc, hfits => by
    have hhead := h.locates hc (List.forall_mem_cons.mp hfits).1
    exact Locates.sequence_stuck h hc hhead

theorem RunsFirst.locates {n : Nat} {es : List Expr} {c : Cursor} {furthest : Nat}
    {steps : List Step} {o : Outcome (Node Unit)} :
    RunsFirst g n es c furthest steps o → (Cursor.start text).Reaches c →
      (∀ e ∈ es, e.Fits g.rules.size) →
      o.OnFailure (LocatesAny g text es c.offset furthest steps)
  | .nil, _, _ => LocatesAny.nil
  | .hit _, _, _ => trivial
  | .miss h hs, hc, hfits => by
    obtain ⟨hhead, hrest⟩ := List.forall_mem_cons.mp hfits
    have hfirst := h.locates hc hhead
    exact (hs.locates hc hrest).imp fun k _ hk => .cons hfirst hk _

theorem RunsMany.locates {n : Nat} {e : Expr} {bounds : Bounds} {count : Nat} {c : Cursor}
    {steps : List Step} {o : Outcome (List (Node Unit))} :
    RunsMany g n e bounds count c steps o → (Cursor.start text).Reaches c →
      e.Fits g.rules.size →
      o.OnFailure fun k => count < bounds.min ∧ Locates (Blames g text e c.offset) steps k
  | .full _, _, _ => trivial
  | .enough _ _ _, _, _ => trivial
  | .tooFew _ h hcount, hc, hfits => ⟨hcount, h.locates hc hfits⟩
  | .idle _ _ _, _, _ => trivial
  | .again _ h _ hm, hc, hfits => by
    have hmin := bounds.min_le_one
    exact (Outcome.onFailure_map _).mpr ((hm.locates (hc.trans h.inReach) hfits).imp
      fun k _ hk => absurd hk.1 (by omega))

end

end Engine

/-! ### Attempts -/

/-- **What matches blames nothing**, whatever was rejected inside it. -/
theorem not_blames_of_ends {g : Grammar} {text : List Char} {e : Expr} {i j : Nat}
    (hi : Text.isBoundary text i = true) (h : Recognizes g text e i (.ends j)) (t : Terminal)
    (k : Nat) : ¬ Blames g text e i t k := by
  intro hblames
  obtain ⟨c, hc⟩ := Cursor.exists_at?_of_isBoundary hi
  obtain ⟨hreach, rfl⟩ := Cursor.at?_eq_some_iff.mp hc
  obtain ⟨n, steps, o, hrun, ho⟩ := (recognizes_iff_yields hreach).mp h
  have hfails := (hrun.recognizes_iff hreach).mp hblames.fails
  rw [ho] at hfails
  cases hfails

/-- **The offset of a failure is the rightmost blame.** Let an attempt of a rule at a position of a
text fail, in either mode.

* The failure is put down to something. Whatever it is put down to is a terminal at a position not
  before that of the attempt, where it does not accept the text.
* The offset returned is the greatest of these positions.
* Every terminal that is blamed was tried at that position in the match and rejected there, and it
  stands in a rule that the attempted one can come to.
* A `?` or `*` blames nothing, and neither does any expression that matches, such as a choice with
  failed alternatives before the one that is taken. -/
theorem failure_offset_rightmost_blame {g : Grammar} {id : RuleId} {text : String} {i : Nat}
    {mode : MatchMode} {offset : Nat} (h : g.attempt id text i mode = .ok (.failed offset)) :
    (∃ t k, Blames g text.toList (.rule id) i t k) ∧
    (∀ t k, Blames g text.toList (.rule id) i t k →
      i ≤ k ∧ ∀ j, ¬ t.Accepts text.toList k j) ∧
    IsGreatest { k | ∃ t, Blames g text.toList (.rule id) i t k } offset ∧
    (∃ c n steps, Cursor.at? text.toList i = some c ∧
      Runs g n (.rule id) c steps (.failed offset) ∧
      ∀ t k, Blames g text.toList (.rule id) i t k →
        g.CanTry id t ∧ Rejected steps t k) ∧
    (∀ e bounds j t k, bounds.min = 0 → ¬ Blames g text.toList (.repeated e bounds) j t k) ∧
    ∀ e j l, Text.isBoundary text.toList j = true → Recognizes g text.toList e j (.ends l) →
      ∀ t k, ¬ Blames g text.toList e j t k := by
  obtain ⟨-, c, n, steps, hc, hrun⟩ := Grammar.exists_runs_of_attempt h
  obtain ⟨hreach, rfl⟩ := Cursor.at?_eq_some_iff.mp hc
  have hfits : (Expr.rule id).Fits g.rules.size := by
    simpa [Expr.Fits, Expr.preorder, Grammar.Declares] using hrun.declares
  have hlocates : Locates (Blames g text.toList (.rule id) c.offset) steps offset :=
    hrun.locates hreach hfits
  obtain ⟨t, ht⟩ := hlocates.greatest.1
  refine ⟨⟨t, offset, ht⟩, fun t k hblames => ⟨?_, hblames.not_accepts⟩, hlocates.greatest,
    ⟨c, n, steps, hc, hrun, fun t k hblames =>
      ⟨hblames.canTry, hlocates.rejected t k hblames⟩⟩, ?_,
    fun e j l hj hends t k => not_blames_of_ends hj hends t k⟩
  · obtain ⟨d, rfl, hmem⟩ := hlocates.rejected t k hblames
    exact (hrun.soundSteps _ hmem).1.offset_le
  · rintro e bounds j t k hmin (_ | _ | _ | _ | _)
    cases hmin

/-- An item in one of two forms. In the second, pairs of letters and three letters in a row may
stand in front. -/
def retreat : Grammar where
  rules := #[
    ⟨"item", [.sequence [.literal "a", .literal "x"],
      .sequence [.repeated (.sequence [.literal "a", .literal "b"]) .zeroToMany,
        .choice [.rule ⟨1⟩, .literal ""], .literal "c"]], nofun⟩,
    ⟨"three", [.sequence [.literal "a", .literal "a", .literal "a"]], nofun⟩]
  start := ⟨0⟩
  valid := rfl

/-- Three letters are looked for up to the end of the text, further than anything that is blamed:
the choice is got over with its second alternative. -/
theorem retreat_blame :
    retreat.attempt ⟨1⟩ "aa" 0 = .ok (.failed 2) ∧
    retreat.attempt ⟨0⟩ "aa" 0 = .ok (.failed 1) ∧
    (∃ t, Blames retreat "aa".toList (.rule ⟨0⟩) 0 t 1) ∧
    ∀ t, ¬ Blames retreat "aa".toList (.rule ⟨0⟩) 0 t 2 := by
  have hthree : retreat.attempt ⟨1⟩ "aa" 0 = .ok (.failed 2) := by decide +kernel
  have hitem : retreat.attempt ⟨0⟩ "aa" 0 = .ok (.failed 1) := by decide +kernel
  obtain ⟨-, -, ⟨hblamed, hbound⟩, -⟩ := failure_offset_rightmost_blame hitem
  exact ⟨hthree, hitem, hblamed, fun t ht => absurd (hbound ⟨t, ht⟩) (by decide)⟩

end PegGrammar
