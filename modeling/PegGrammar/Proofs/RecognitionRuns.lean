import PegGrammar.Expr.Combinators
import PegGrammar.Proofs.EntryPoints
import PegGrammar.Proofs.Recognition

/-!
# The engine computes the semantics

The courses of the engine and the verdicts of the semantics are compared in both directions. A
course erases to a derivation (`Runs.recognizes`), and a derivation can be run
(`Recognizes.yields`). The first is by induction on courses, the second by induction on
derivations; neither needs a match to end, since both are given one that has.

## What is left of a repetition

The engine counts rounds and compares with bounds; the semantics has one rule for each way a `?`,
`*` or `+` can go. `remainder` connects them: after some rounds, what is left of a repetition is
again an expression, and it is that expression whose verdict the remaining rounds decide.

## Main results

* `recognizes_iff_yields` — the semantics and the courses of the engine agree
* `attempt_decides_recognition` — matching a rule returns the verdict, and does not return when
  there is none
-/

namespace PegGrammar

/-- The verdict that an outcome stands for. -/
def Outcome.verdict {α : Type} : Outcome α → Verdict
  | .matched _ stop => .ends stop.offset
  | .failed _ => .fails

namespace Engine

variable {g : Grammar} {text : List Char}

/-! ### From courses to verdicts -/

@[simp] theorem verdict_map {α β : Type} (f : α → β) (o : Outcome α) :
    (o.map f).verdict = o.verdict := by
  cases o <;> rfl

@[simp] theorem verdict_enclose (label : Label) (c : Cursor) (o : Outcome (List (Node Unit))) :
    (o.enclose label c).verdict = o.verdict := by
  cases o <;> rfl

/-- What is left of a repetition after some rounds, as an expression. -/
def remainder (e : Expr) : Bounds → Nat → Expr
  | .zeroToOne, 0 => .repeated e .zeroToOne
  | .zeroToOne, _ + 1 => .sequence []
  | .zeroToMany, _ => .repeated e .zeroToMany
  | .oneToMany, 0 => .repeated e .oneToMany
  | .oneToMany, _ + 1 => .repeated e .zeroToMany

/-- Before the first round everything is left. This is where the rule for a repetition starts
from. -/
theorem remainder_zero (e : Expr) (bounds : Bounds) :
    remainder e bounds 0 = .repeated e bounds := by
  cases bounds <;> rfl

section Remainder

variable {e : Expr} {bounds : Bounds} {count i j : Nat} {v : Verdict}

/-- The five lemmas of this section have the names and the hypotheses of the five ways in which a
course of rounds can go, so that the induction over courses has one line for each. -/
theorem remainder_full (hb : bounds.allowsMore count = false) :
    Recognizes g text (remainder e bounds count) i (.ends i) := by
  match bounds, count, hb with
  | .zeroToOne, _ + 1, _ => exact .sequence_nil

/-- A round that fails when there have been enough ends the repetition where it stands. -/
theorem remainder_enough (hb : bounds.allowsMore count = true) (hc : bounds.min ≤ count)
    (h : Recognizes g text e i .fails) :
    Recognizes g text (remainder e bounds count) i (.ends i) := by
  match bounds, count, hb, hc with
  | .zeroToOne, 0, _, _ => exact .optional_skips h
  | .zeroToMany, _, _, _ => exact .star_stops h
  | .oneToMany, _ + 1, _, _ => exact .star_stops h

/-- Only `e+` can have too few rounds, and then it has none. -/
theorem remainder_tooFew (hc : count < bounds.min) (h : Recognizes g text e i .fails) :
    Recognizes g text (remainder e bounds count) i .fails := by
  match bounds, count, hc with
  | .oneToMany, 0, _ => exact .plus_fails h

theorem remainder_idle (hb : bounds.allowsMore count = true)
    (h : Recognizes g text e i (.ends i)) :
    Recognizes g text (remainder e bounds count) i (.ends i) := by
  match bounds, count, hb with
  | .zeroToOne, 0, _ => exact .optional_takes h
  | .zeroToMany, _, _ => exact .star_idles h
  | .oneToMany, 0, _ => exact .plus_ends h (.star_idles h)
  | .oneToMany, _ + 1, _ => exact .star_idles h

/-- One more round. Each kind of repetition has a rule of its own for it, since `e?` has nothing
left after it, `e+` becomes `e*`, and `e*` stays what it is. -/
theorem remainder_again (hb : bounds.allowsMore count = true)
    (h : Recognizes g text e i (.ends j)) (hij : j ≠ i)
    (hs : Recognizes g text (remainder e bounds (count + 1)) j v) :
    Recognizes g text (remainder e bounds count) i v := by
  match bounds, count, hb with
  | .zeroToOne, 0, _ =>
    -- after its one round an optional has nothing left to do
    cases hs with
    | sequence_nil => exact .optional_takes h
  | .zeroToMany, _, _ => exact .star_again h hij hs
  | .oneToMany, 0, _ => exact .plus_ends h (.star_again h hij hs)
  | .oneToMany, _ + 1, _ => exact .star_again h hij hs

end Remainder

mutual

/-- **A course erases to a derivation.** -/
theorem Runs.recognizes {n : Nat} {e : Expr} {c : Cursor} {steps : List Step}
    {o : Outcome (Node Unit)} :
    Runs g n e c steps o → (Cursor.start text).Reaches c → Recognizes g text e c.offset o.verdict
  | .accepted h ho, hc => by
    rw [ho]
    exact .accepts ((Terminal.accepts_iff hc).mpr ⟨_, h, rfl⟩)
  | .rejected h, hc => by
    refine .rejects fun j hj => ?_
    obtain ⟨stop, hstop, _⟩ := (Terminal.accepts_iff hc).mp hj
    rw [h] at hstop
    cases hstop
  | .sequence h ho, hc => by
    rw [ho, verdict_enclose]
    exact h.recognizes hc
  | .choice h ho, hc => by
    rw [ho, verdict_enclose, verdict_map]
    exact h.recognizes hc
  | .repeated h ho, hc => by
    rw [ho, verdict_enclose, ← remainder_zero]
    exact h.recognizes hc
  | .rule hr h ho, hc => by
    rw [ho, verdict_enclose, verdict_map]
    exact .rule hr (h.recognizes hc)

theorem RunsEach.recognizes {n : Nat} {es : List Expr} {c : Cursor} {steps : List Step}
    {o : Outcome (List (Node Unit))} :
    RunsEach g n es c steps o → (Cursor.start text).Reaches c →
      Recognizes g text (.sequence es) c.offset o.verdict
  | .nil, _ => .sequence_nil
  | .cons h hs, hc => by
    rw [verdict_map]
    exact .sequence_cons (h.recognizes hc) (hs.recognizes (hc.trans h.inReach))
  | .stuck h, hc => .sequence_fails (h.recognizes hc)

theorem RunsFirst.recognizes {n : Nat} {es : List Expr} {c : Cursor} {furthest : Nat}
    {steps : List Step} {o : Outcome (Node Unit)} :
    RunsFirst g n es c furthest steps o → (Cursor.start text).Reaches c →
      Recognizes g text (.choice es) c.offset o.verdict
  | .nil, _ => .choice_fails fun _ he => absurd he List.not_mem_nil
  | .hit h, hc => .choice_hit (h.recognizes hc)
  | .miss h hs, hc => .choice_miss (h.recognizes hc) (hs.recognizes hc)

theorem RunsMany.recognizes {n : Nat} {e : Expr} {bounds : Bounds} {count : Nat} {c : Cursor}
    {steps : List Step} {o : Outcome (List (Node Unit))} :
    RunsMany g n e bounds count c steps o → (Cursor.start text).Reaches c →
      Recognizes g text (remainder e bounds count) c.offset o.verdict
  | .full hb, _ => remainder_full hb
  | .enough hb h hn, hc => remainder_enough hb hn (h.recognizes hc)
  | .tooFew _ h hn, hc => remainder_tooFew hn (h.recognizes hc)
  | @RunsMany.idle _ _ _ _ _ c stop _ _ hb h hs, hc => by
    have hreach : c.Reaches stop := h.inReach
    have hoff := hreach.length_lt_iff.not.mp hs
    have heq := Nat.le_antisymm (Nat.le_of_not_lt hoff) hreach.offset_le
    have hrec := h.recognizes hc
    rw [Outcome.verdict, heq] at hrec ⊢
    exact remainder_idle hb hrec
  | .again hb h hs hm, hc => by
    have hlt := (Cursor.Reaches.length_lt_iff h.inReach).mp hs
    rw [verdict_map]
    exact remainder_again hb (h.recognizes hc) (Nat.ne_of_gt hlt)
      (hm.recognizes (hc.trans h.inReach))

end

/-! ### From verdicts to courses -/

theorem verdict_eq_ends_iff {α : Type} {o : Outcome α} {j : Nat} :
    o.verdict = .ends j ↔ ∃ value stop, o = .matched value stop ∧ stop.offset = j := by
  cases o <;> simp [Outcome.verdict]

theorem verdict_eq_fails_iff {α : Type} {o : Outcome α} :
    o.verdict = .fails ↔ ∃ offset, o = .failed offset := by
  cases o <;> simp [Outcome.verdict]

/-- Some course of the expression at the cursor comes to the verdict. -/
def Yields (g : Grammar) (e : Expr) (c : Cursor) (v : Verdict) : Prop :=
  ∃ n steps o, Runs g n e c steps o ∧ o.verdict = v

section Yields

variable {e : Expr} {es before after : List Expr} {bounds : Bounds} {c stop : Cursor} {i j : Nat}
  {v : Verdict}

theorem Yields.exists_matched (h : Yields g e c (.ends j)) :
    ∃ n steps node stop, Runs g n e c steps (.matched node stop) ∧ stop.offset = j := by
  obtain ⟨n, steps, o, h, ho⟩ := h
  obtain ⟨node, stop, rfl, hj⟩ := verdict_eq_ends_iff.mp ho
  exact ⟨n, steps, node, stop, h, hj⟩

theorem Yields.exists_failed (h : Yields g e c .fails) :
    ∃ n steps offset, Runs g n e c steps (.failed offset) := by
  obtain ⟨n, steps, o, h, ho⟩ := h
  obtain ⟨offset, rfl⟩ := verdict_eq_fails_iff.mp ho
  exact ⟨n, steps, offset, h⟩

/-- A sequence yields what its elements yield in a row. With this and the two lemmas that follow,
the rules of recognition need to be checked for the elements, the alternatives and the rounds
only. -/
theorem yields_sequence_iff :
    Yields g (.sequence es) c v ↔ ∃ n steps o, RunsEach g n es c steps o ∧ o.verdict = v := by
  constructor
  · rintro ⟨n, steps, o, h, rfl⟩
    obtain ⟨body, parts, hbody, rfl, _⟩ := runs_sequence_iff.mp h
    exact ⟨n, body, parts, hbody, (verdict_enclose _ _ _).symm⟩
  · rintro ⟨n, steps, o, h, rfl⟩
    exact ⟨n, _, _, .sequence h rfl, verdict_enclose _ _ _⟩

theorem yields_choice_iff :
    Yields g (.choice es) c v ↔
      ∃ n steps o, RunsFirst g n es c c.offset steps o ∧ o.verdict = v := by
  constructor
  · rintro ⟨n, steps, o, h, rfl⟩
    obtain ⟨body, part, hbody, rfl, _⟩ := runs_choice_iff.mp h
    exact ⟨n, body, part, hbody, by rw [verdict_enclose, verdict_map]⟩
  · rintro ⟨n, steps, o, h, rfl⟩
    exact ⟨n, _, _, .choice h rfl, by rw [verdict_enclose, verdict_map]⟩

theorem yields_repeated_iff :
    Yields g (.repeated e bounds) c v ↔
      ∃ n steps o, RunsMany g n e bounds 0 c steps o ∧ o.verdict = v := by
  constructor
  · rintro ⟨n, steps, o, h, rfl⟩
    obtain ⟨body, parts, hbody, rfl, _⟩ := runs_repeated_iff.mp h
    exact ⟨n, body, parts, hbody, (verdict_enclose _ _ _).symm⟩
  · rintro ⟨n, steps, o, h, rfl⟩
    exact ⟨n, _, _, .repeated h rfl, verdict_enclose _ _ _⟩

theorem Yields.sequence_cons {n : Nat} {steps : List Step} {node : Node Unit}
    (h : Runs g n e c steps (.matched node stop)) (hs : Yields g (.sequence es) stop v) :
    Yields g (.sequence (e :: es)) c v := by
  obtain ⟨k, more, others, hmore, rfl⟩ := yields_sequence_iff.mp hs
  exact yields_sequence_iff.mpr ⟨max n k, _, _, .cons_max h hmore, verdict_map _ _⟩

/-- Alternatives that fail only move the furthest failure. -/
theorem exists_runsFirst_append (hb : ∀ b ∈ before, Yields g b c .fails)
    (hs : ∀ furthest, ∃ n steps o, RunsFirst g n es c furthest steps o ∧ o.verdict = v)
    (furthest : Nat) :
    ∃ n steps o, RunsFirst g n (before ++ es) c furthest steps o ∧ o.verdict = v := by
  induction before generalizing furthest with
  | nil => exact hs furthest
  | cons b before ih =>
    obtain ⟨hbfails, hrest⟩ := List.forall_mem_cons.mp hb
    obtain ⟨n, steps, offset, h⟩ := hbfails.exists_failed
    obtain ⟨k, more, o, hmore, ho⟩ := ih hrest (max furthest offset)
    exact ⟨max n k, _, o, .miss_max h hmore, ho⟩

/-- The alternatives in front of the one that matches have courses of their own, which are put
together first. -/
theorem Yields.choice_takes (hb : ∀ b ∈ before, Yields g b c .fails)
    (h : Yields g e c (.ends j)) : Yields g (.choice (before ++ e :: after)) c (.ends j) := by
  obtain ⟨n, steps, node, stop, hrun, rfl⟩ := h.exists_matched
  exact yields_choice_iff.mpr
    (exists_runsFirst_append hb (fun _ => ⟨n, steps, _, .hit hrun, rfl⟩) _)

theorem Yields.choice_fails (hall : ∀ e ∈ es, Yields g e c .fails) :
    Yields g (.choice es) c .fails := by
  have h := exists_runsFirst_append hall (fun _ => ⟨0, [], _, .nil, rfl⟩) c.offset
  rw [List.append_nil] at h
  exact yields_choice_iff.mpr h

/-- Where the bounds set no maximum and their minimum has been met, they and the count of rounds
have no further influence. -/
theorem RunsMany.rebound {n : Nat} {e : Expr} {b b' : Bounds} {count count' : Nat} {c : Cursor}
    {steps : List Step} {o : Outcome (List (Node Unit))} (hmax : b'.max? = none) :
    RunsMany g n e b count c steps o → b.max? = none → b.min ≤ count → b'.min ≤ count' →
      RunsMany g n e b' count' c steps o
  | .full hb, hm, _, _ => by rw [Bounds.allowsMore, hm] at hb; cases hb
  | .enough _ h _, _, _, hmin' => .enough (by rw [Bounds.allowsMore, hmax]; rfl) h hmin'
  | .tooFew _ _ hc, _, hmin, _ => absurd hmin (Nat.not_le_of_lt hc)
  | .idle _ h hs, _, _, _ => .idle (by rw [Bounds.allowsMore, hmax]; rfl) h hs
  | .again _ h hs hm, hm', hmin, hmin' =>
    .again (by rw [Bounds.allowsMore, hmax]; rfl) h hs
      (hm.rebound hmax hm' (Nat.le_succ_of_le hmin) (Nat.le_succ_of_le hmin'))

theorem Yields.optional_takes {n : Nat} {steps : List Step} {node : Node Unit}
    (h : Runs g n e c steps (.matched node stop)) :
    Yields g (.repeated e .zeroToOne) c (.ends stop.offset) := by
  rw [yields_repeated_iff]
  by_cases hlt : stop.rest.length < c.rest.length
  · exact ⟨n, _, _, .again rfl h hlt (.full rfl), rfl⟩
  · exact ⟨n, _, _, .idle rfl h hlt, rfl⟩

/-- A round that moved on, followed by the rest of a repetition. The rest begins to count its rounds
anew, which `RunsMany.rebound` allows for `*`. -/
theorem Yields.star_again {n : Nat} {steps : List Step} {node : Node Unit}
    (h : Runs g n e c steps (.matched node stop)) (hne : stop.offset ≠ c.offset)
    (hs : Yields g (.repeated e .zeroToMany) stop v) :
    Yields g (.repeated e .zeroToMany) c v := by
  obtain ⟨k, more, others, hmore, rfl⟩ := yields_repeated_iff.mp hs
  have hreach : c.Reaches stop := h.inReach
  have hlt : stop.rest.length < c.rest.length :=
    hreach.length_lt_iff.mpr (Nat.lt_of_le_of_ne hreach.offset_le hne.symm)
  have hmore' : RunsMany g k e .zeroToMany 1 stop more others :=
    hmore.rebound rfl rfl (Nat.le_refl 0) (Nat.zero_le 1)
  exact yields_repeated_iff.mpr
    ⟨max n k, _, _, .again_max rfl h hlt hmore', verdict_map _ _⟩

/-- `e+` goes the way of `e*` once `e` has matched. -/
theorem Yields.plus_ends {n : Nat} {steps : List Step} {node : Node Unit}
    (h : Runs g n e c steps (.matched node stop)) (hs : Yields g (.repeated e .zeroToMany) c v) :
    Yields g (.repeated e .oneToMany) c v := by
  rw [yields_repeated_iff] at hs ⊢
  obtain ⟨k, round, parts, hround, hv⟩ := hs
  refine ⟨k, round, parts, ?_, hv⟩
  rcases (runsMany_more_iff rfl).mp hround with ⟨offset, hfail, _⟩ |
    ⟨node', stop', hidle, hs, rfl⟩ |
    ⟨first, node', stop', more, others, hfirst, hs, hmore, rfl, rfl⟩
  · -- the star stopped at once, but `e` has one course here and it matched
    cases (hfail.unique h).2
  · exact .idle rfl hidle hs
  · exact .again rfl hfirst hs (hmore.rebound rfl rfl (Nat.zero_le _) (Nat.le_refl 1))

theorem Yields.rule {id : RuleId} {r : Rule} (hr : g.rule? id = some r)
    (h : Yields g (.choice r.alternatives) c v) : Yields g (.rule id) c v := by
  obtain ⟨n, steps, part, hfirst, rfl⟩ := yields_choice_iff.mp h
  exact ⟨n + 1, _, _, .rule hr hfirst rfl, by rw [verdict_enclose, verdict_map]⟩

end Yields

end Engine

open Engine in
/-- **A derivation can be run**, at the cursor that stands at its offset. -/
theorem Recognizes.yields {g : Grammar} {text : List Char} {e : Expr} {i : Nat} {v : Verdict}
    (h : Recognizes g text e i v) {c : Cursor} (hc : (Cursor.start text).Reaches c)
    (hi : c.offset = i) : Yields g e c v := by
  induction h generalizing c with
  | accepts ht =>
    subst hi
    obtain ⟨stop, hstop, rfl⟩ := (Terminal.accepts_iff hc).mp ht
    exact ⟨0, _, _, .accepted hstop rfl, rfl⟩
  | @rejects t i ht =>
    subst hi
    cases hstop : t.accept? c with
    | some stop => exact absurd ((Terminal.accepts_iff hc).mpr ⟨stop, hstop, rfl⟩) (ht _)
    | none => exact ⟨0, _, _, .rejected hstop, rfl⟩
  | sequence_nil => exact ⟨0, _, _, .sequence .nil rfl, by rw [← hi]; rfl⟩
  | sequence_cons _ _ ih ihs =>
    obtain ⟨n, steps, node, stop, hrun, hj⟩ := (ih hc hi).exists_matched
    exact .sequence_cons hrun (ihs (hc.trans hrun.inReach) hj)
  | sequence_fails _ ih =>
    obtain ⟨n, steps, offset, hrun⟩ := (ih hc hi).exists_failed
    exact yields_sequence_iff.mpr ⟨n, _, _, .stuck hrun, rfl⟩
  | choice_takes _ _ ihb ih => exact .choice_takes (fun b hb => ihb b hb hc hi) (ih hc hi)
  | choice_fails _ ih => exact .choice_fails fun e he => ih e he hc hi
  | optional_takes _ ih =>
    obtain ⟨n, steps, node, stop, hrun, rfl⟩ := (ih hc hi).exists_matched
    exact .optional_takes hrun
  | optional_skips _ ih =>
    obtain ⟨n, steps, offset, hrun⟩ := (ih hc hi).exists_failed
    exact yields_repeated_iff.mpr ⟨n, _, _, .enough rfl hrun (Nat.le_refl 0), by rw [← hi]; rfl⟩
  | star_stops _ ih =>
    obtain ⟨n, steps, offset, hrun⟩ := (ih hc hi).exists_failed
    exact yields_repeated_iff.mpr ⟨n, _, _, .enough rfl hrun (Nat.le_refl 0), by rw [← hi]; rfl⟩
  | star_idles _ ih =>
    obtain ⟨n, steps, node, stop, hrun, hj⟩ := (ih hc hi).exists_matched
    have hidle : ¬ stop.rest.length < c.rest.length := by
      rw [Cursor.Reaches.length_lt_iff hrun.inReach]
      omega
    exact yields_repeated_iff.mpr ⟨n, _, _, .idle rfl hrun hidle, by rw [← hj]; rfl⟩
  | star_again _ hne _ ih ihs =>
    obtain ⟨n, steps, node, stop, hrun, hj⟩ := (ih hc hi).exists_matched
    exact .star_again hrun (by rw [hj, hi]; exact hne) (ihs (hc.trans hrun.inReach) hj)
  | plus_fails _ ih =>
    obtain ⟨n, steps, offset, hrun⟩ := (ih hc hi).exists_failed
    exact yields_repeated_iff.mpr ⟨n, _, _, .tooFew rfl hrun (Nat.lt_succ_self 0), rfl⟩
  | plus_ends _ _ ih ihs =>
    obtain ⟨n, steps, node, stop, hrun, _⟩ := (ih hc hi).exists_matched
    exact .plus_ends hrun (ihs hc hi)
  | rule hr _ ih => exact .rule hr (ih hc hi)

open Engine in
/-- **The semantics and the engine's courses agree** at every cursor of the text. -/
theorem recognizes_iff_yields {g : Grammar} {text : List Char} {e : Expr} {c : Cursor}
    {v : Verdict} (hc : (Cursor.start text).Reaches c) :
    Recognizes g text e c.offset v ↔ Yields g e c v := by
  constructor
  · intro h
    exact h.yields hc rfl
  · rintro ⟨n, steps, o, h, rfl⟩
    exact h.recognizes hc

/-! ### Matching a rule -/

section Attempt

open Engine

variable {g : Grammar} {id : RuleId} {text : String} {i : Nat} {c : Cursor}

/-- An attempt returns an outcome exactly when the semantics has the verdict of that outcome. -/
theorem exists_attempt_iff (hlen : Text.byteLength text.toList ≤ maxInputLength)
    (hc : Cursor.at? text.toList i = some c) (hid : g.Declares id) (mode : MatchMode)
    (v : Verdict) :
    (∃ o, g.attempt id text i mode = .ok o ∧ o.verdict = v) ↔
      Recognizes g text.toList (.rule id) i v := by
  obtain ⟨hreach, rfl⟩ := Cursor.at?_eq_some_iff.mp hc
  rw [recognizes_iff_yields hreach]
  constructor
  · rintro ⟨o, ho, rfl⟩
    rcases Grammar.attempt_cases hlen hc hid mode with ⟨n, steps, o', hrun, ho'⟩ | ⟨_, herr⟩
    · obtain rfl : o' = o := Except.ok.inj (ho'.symm.trans ho)
      exact ⟨n, steps, o', hrun, rfl⟩
    · rw [herr] at ho
      cases ho
  · rintro ⟨n, steps, o, hrun, rfl⟩
    exact ⟨o, Grammar.attempt_eq_ok hlen hc hrun mode, rfl⟩

/-- A call without a verdict is a call without a course, so that recognition speaks of endless
matches as well. -/
theorem forall_not_recognizes_iff (hreach : (Cursor.start text.toList).Reaches c) :
    (∀ v, ¬ Recognizes g text.toList (.rule id) c.offset v) ↔
      ∀ n steps o, ¬ Runs g n (.rule id) c steps o := by
  simp only [recognizes_iff_yields hreach]
  constructor
  · intro h n steps o hrun
    exact h o.verdict ⟨n, steps, o, hrun, rfl⟩
  · rintro h v ⟨n, steps, o, hrun, _⟩
    exact h n steps o hrun

/-- **The engine computes the semantics.** For a declared rule, a text that is short enough and a
position of it, in either mode, an attempt

* returns a match up to `j` exactly when the semantics has the rule end at `j`;
* returns a failure exactly when the semantics has the rule fail;
* does not return exactly when the semantics has no verdict, and then no depth of nested calls
  would be enough. -/
theorem attempt_decides_recognition (hid : g.Declares id)
    (hlen : Text.byteLength text.toList ≤ maxInputLength)
    (hi : Text.isBoundary text.toList i = true) (mode : MatchMode) :
    (∀ j, (∃ node stop, g.attempt id text i mode = .ok (.matched node stop) ∧ stop.offset = j) ↔
      Recognizes g text.toList (.rule id) i (.ends j)) ∧
    ((∃ offset, g.attempt id text i mode = .ok (.failed offset)) ↔
      Recognizes g text.toList (.rule id) i .fails) ∧
    (g.attempt id text i mode = .error .leftRecursion ↔
      ∀ v, ¬ Recognizes g text.toList (.rule id) i v) ∧
    ((∀ v, ¬ Recognizes g text.toList (.rule id) i v) ↔
      ∀ c, Cursor.at? text.toList i = some c → Diverges g id c) := by
  obtain ⟨c, hc⟩ := Cursor.exists_at?_of_isBoundary hi
  have hverdict := exists_attempt_iff hlen hc hid mode
  obtain ⟨hreach, rfl⟩ := Cursor.at?_eq_some_iff.mp hc
  refine ⟨fun j => ?_, ?_, ?_, ?_⟩
  · rw [← hverdict]
    simp only [verdict_eq_ends_iff]
    constructor
    · rintro ⟨node, stop, ho, rfl⟩
      exact ⟨_, ho, node, stop, rfl, rfl⟩
    · rintro ⟨_, ho, node, stop, rfl, rfl⟩
      exact ⟨node, stop, ho, rfl⟩
  · rw [← hverdict]
    simp only [verdict_eq_fails_iff]
    constructor
    · rintro ⟨offset, ho⟩
      exact ⟨_, ho, offset, rfl⟩
    · rintro ⟨_, ho, offset, rfl⟩
      exact ⟨offset, ho⟩
  · rw [forall_not_recognizes_iff hreach]
    rcases Grammar.attempt_cases hlen hc hid mode with ⟨n, steps, o, hrun, ho⟩ | ⟨hdiv, herr⟩
    · rw [ho]
      exact ⟨nofun, fun h => absurd hrun (h n steps o)⟩
    · exact ⟨fun _ => (diverges_iff hid).mp hdiv, fun _ => herr⟩
  · rw [forall_not_recognizes_iff hreach, ← diverges_iff hid]
    constructor
    · rintro h d hd
      obtain rfl : c = d := Option.some.inj (hc.symm.trans hd)
      exact h
    · intro h
      exact h c hc

/-- Letters in parentheses, and a rule that begins with itself. -/
def letters : Grammar where
  rules := #[
    ⟨"nest", [.sequence [.literal "(", .rule ⟨0⟩, .literal ")"], .literal "é"], nofun⟩,
    ⟨"left", [.sequence [.rule ⟨1⟩, .literal "x"], .literal "x"], nofun⟩]
  start := ⟨0⟩
  valid := rfl

/-- A match from inside the text, a failure, and a call that never returns. -/
theorem letters_attempts :
    Recognizes letters "((é))".toList (.rule ⟨0⟩) 1 (.ends 5) ∧
    Recognizes letters "((é))".toList (.rule ⟨0⟩) 4 .fails ∧
    ∀ v, ¬ Recognizes letters "xx".toList (.rule ⟨1⟩) 0 v := by
  have hmatched : letters.attempt ⟨0⟩ "((é))" 1 .syntactic = .ok (.matched
      (.branch (.rule "nest") (.of 1 5) [.branch .sequence (.of 1 5) [
        .leaf .literal (.of 1 2) (),
        .branch (.rule "nest") (.of 2 4) [.leaf .literal (.of 2 4) ()],
        .leaf .literal (.of 4 5) ()]]) ⟨5, [')']⟩) := by decide +kernel
  have hfailed : letters.attempt ⟨0⟩ "((é))" 4 .lexical = .ok (.failed 4) := by decide +kernel
  have hleft : letters.attempt ⟨1⟩ "xx" 0 .lexical = .error .leftRecursion := by decide +kernel
  refine ⟨?_, ?_, ?_⟩
  · exact ((attempt_decides_recognition (by decide) (by decide) (by decide) .syntactic).1 5).mp
      ⟨_, _, hmatched, rfl⟩
  · exact (attempt_decides_recognition (by decide) (by decide) (by decide) .lexical).2.1.mp
      ⟨4, hfailed⟩
  · exact (attempt_decides_recognition (by decide) (by decide) (by decide) .lexical).2.2.1.mp hleft

end Attempt

end PegGrammar
