import Mathlib.Data.Finset.Card
import Mathlib.Data.Fintype.Card
import Mathlib.Data.Fintype.Prod
import PegGrammar.Proofs.EngineRuns
import PegGrammar.Proofs.Reach

/-!
# The depth limit is never in the way

`Grammar.matchRule` gives up when calls nest deeper than there are pairs of a rule and a position.
Giving up is right only if no call that nests deeper ever returns, and that is what is proved
here: a call that ends at *some* depth ends within the limit.

## The argument

Look at the calls that can still be made from a cursor on: finitely many, one for each pair. Let
the depth grow by one and see which of them end now and did not before. As soon as none does, none
ever will (`Stable.succ`): what a call does one level up depends only on which of these calls end
and how, and how they end does not change (`Runs.unique`). So every depth before that adds at
least one pair, and there are only so many.

## Main results

* `stable_depthLimit` — beyond the limit no further call ends
* `matchRule_run_of_runs` — a match that has a course takes it
-/

namespace PegGrammar

/-! ### The cursors ahead -/

namespace Cursor

/-- The cursor so many characters further on. -/
def ahead (c : Cursor) (k : Nat) : Cursor :=
  ⟨c.offset + Text.byteLength (c.rest.take k), c.rest.drop k⟩

theorem Reaches.exists_ahead {c d : Cursor} (h : c.Reaches d) :
    ∃ k < c.rest.length + 1, d = c.ahead k := by
  obtain ⟨mid, hmid, hoff⟩ := h
  refine ⟨mid.length, ?_, ?_⟩
  · rw [hmid, List.length_append]
    omega
  · obtain ⟨offset, rest⟩ := d
    simp only at hmid hoff
    rw [ahead, hmid, List.take_left, List.drop_left, hoff]

end Cursor

namespace Engine

variable {σ : Type} {g : Grammar} {n k : Nat} {id : RuleId} {c d : Cursor} {steps : List Step}
  {o : Outcome (Node Unit)}

/-! ### Calls that end -/

/-- Calling the rule at the cursor ends within the depth. -/
def Ends (g : Grammar) (n : Nat) (id : RuleId) (c : Cursor) : Prop :=
  ∃ steps o, Runs g n (.rule id) c steps o

theorem Ends.mono (hn : n ≤ k) (h : Ends g n id c) : Ends g k id c := by
  obtain ⟨steps, o, h⟩ := h
  exact ⟨steps, o, h.mono hn⟩

/-- From `c` on, one more level makes no further call end. -/
def Stable (g : Grammar) (c : Cursor) (n : Nat) : Prop :=
  ∀ id d, c.Reaches d → Ends g (n + 1) id d → Ends g n id d

mutual

/-- At a stable depth the last level is not needed. Only calls have to be looked at: a call that
ends one level up also ends here, with the same course. -/
theorem Runs.lower {m : Nat} {e : Expr} {d : Cursor} {steps : List Step}
    {o : Outcome (Node Unit)} (hst : Stable g c n) :
    Runs g m e d steps o → m = n + 1 → c.Reaches d → Runs g n e d steps o
  | .accepted h ho, _, _ => .accepted h ho
  | .rejected h, _, _ => .rejected h
  | .sequence h ho, hm, hd => .sequence (h.lower hst hm hd) ho
  | .choice h ho, hm, hd => .choice (h.lower hst hm hd) ho
  | .repeated h ho, hm, hd => .repeated (h.lower hst hm hd) ho
  | .rule hr h ho, hm, hd => by
    have hrun := Runs.rule hr h ho
    obtain ⟨steps', o', h'⟩ := hst _ _ hd ⟨_, _, hm ▸ hrun⟩
    obtain ⟨hsteps, hout⟩ := hrun.unique h'
    rwa [hsteps, hout] at h'

theorem RunsEach.lower {m : Nat} {es : List Expr} {d : Cursor} {steps : List Step}
    {o : Outcome (List (Node Unit))} (hst : Stable g c n) :
    RunsEach g m es d steps o → m = n + 1 → c.Reaches d → RunsEach g n es d steps o
  | .nil, _, _ => .nil
  | .cons h hs, hm, hd => .cons (h.lower hst hm hd) (hs.lower hst hm (hd.trans h.inReach))
  | .stuck h, hm, hd => .stuck (h.lower hst hm hd)

theorem RunsFirst.lower {m : Nat} {es : List Expr} {d : Cursor} {furthest : Nat}
    {steps : List Step} {o : Outcome (Node Unit)} (hst : Stable g c n) :
    RunsFirst g m es d furthest steps o → m = n + 1 → c.Reaches d →
      RunsFirst g n es d furthest steps o
  | .nil, _, _ => .nil
  | .hit h, hm, hd => .hit (h.lower hst hm hd)
  | .miss h hs, hm, hd => .miss (h.lower hst hm hd) (hs.lower hst hm hd)

theorem RunsMany.lower {m : Nat} {e : Expr} {bounds : Bounds} {count : Nat} {d : Cursor}
    {steps : List Step} {o : Outcome (List (Node Unit))} (hst : Stable g c n) :
    RunsMany g m e bounds count d steps o → m = n + 1 → c.Reaches d →
      RunsMany g n e bounds count d steps o
  | .full hb, _, _ => .full hb
  | .enough hb h hc, hm, hd => .enough hb (h.lower hst hm hd) hc
  | .tooFew hb h hc, hm, hd => .tooFew hb (h.lower hst hm hd) hc
  | .idle hb h hs, hm, hd => .idle hb (h.lower hst hm hd) hs
  | .again hb h hs hr, hm, hd =>
    .again hb (h.lower hst hm hd) hs (hr.lower hst hm (hd.trans h.inReach))

end

theorem Stable.succ (h : Stable g c n) : Stable g c (n + 1) := by
  rintro id d hd ⟨steps, o, hrun⟩
  obtain ⟨r, body, part, hr, hfirst, ho, hsteps⟩ := runs_rule_iff.mp hrun
  exact ⟨steps, o, runs_rule_iff.mpr ⟨r, body, part, hr, hfirst.lower h rfl hd, ho, hsteps⟩⟩

theorem Stable.mono (hn : n ≤ k) (h : Stable g c n) : Stable g c k := by
  induction hn with
  | refl => exact h
  | step _ ih => exact ih.succ

/-- Beyond a stable depth no further call ends. -/
theorem Stable.ends (h : Stable g c n) (hd : c.Reaches d) (hk : Ends g k id d) :
    Ends g n id d := by
  rcases Nat.le_total k n with hkn | hnk
  · exact hk.mono hkn
  · induction hnk with
    | refl => exact hk
    | step hnk ih => exact ih (h.mono hnk id d hd hk)

/-! ### Counting the calls -/

open Classical in
/-- The calls from `c` on that end within the depth, as pairs of a rule and a distance. -/
noncomputable def ending (g : Grammar) (c : Cursor) (n : Nat) :
    Finset (Fin g.rules.size × Fin (c.rest.length + 1)) :=
  Finset.univ.filter fun p => Ends g n ⟨p.1⟩ (c.ahead p.2)

theorem mem_ending {p : Fin g.rules.size × Fin (c.rest.length + 1)} :
    p ∈ ending g c n ↔ Ends g n ⟨p.1⟩ (c.ahead p.2) := by
  simp [ending]

theorem card_ending_le (g : Grammar) (c : Cursor) (n : Nat) :
    (ending g c n).card ≤ g.depthLimit c := by
  calc (ending g c n).card
      ≤ Fintype.card (Fin g.rules.size × Fin (c.rest.length + 1)) := Finset.card_le_univ _
    _ = g.depthLimit c := by rw [Fintype.card_prod, Fintype.card_fin, Fintype.card_fin]; rfl

/-- A depth that is not stable leaves a call for the next one. -/
theorem ending_ssubset (h : ¬ Stable g c n) : ending g c n ⊂ ending g c (n + 1) := by
  rw [Stable] at h
  push Not at h
  obtain ⟨id, d, hd, hends, hnot⟩ := h
  obtain ⟨steps, o, hrun⟩ := hends
  obtain ⟨j, hj, rfl⟩ := hd.exists_ahead
  rw [Finset.ssubset_iff_of_subset
    fun p hp => mem_ending.mpr ((mem_ending.mp hp).mono (Nat.le_succ n))]
  exact ⟨(⟨id.index, hrun.declares⟩, ⟨j, hj⟩), mem_ending.mpr ⟨steps, o, hrun⟩,
    fun hmem => hnot (mem_ending.mp hmem)⟩

theorem le_card_ending (h : ∀ k < n, ¬ Stable g c k) : n ≤ (ending g c n).card := by
  induction n with
  | zero => exact Nat.zero_le _
  | succ n ih =>
    have hn := ih fun k hk => h k (Nat.lt_succ_of_lt hk)
    have hlt := Finset.card_lt_card (ending_ssubset (h n (Nat.lt_succ_self n)))
    omega

/-- **The limit is stable**: each earlier unstable depth ends one more of the calls it counts. -/
theorem stable_depthLimit (g : Grammar) (c : Cursor) : Stable g c (g.depthLimit c) := by
  by_contra hnot
  have hall : ∀ k < g.depthLimit c + 1, ¬ Stable g c k := by
    intro k hk hst
    exact hnot (hst.mono (Nat.le_of_lt_succ hk))
  have hle := le_card_ending hall
  have hcard := card_ending_le g c (g.depthLimit c + 1)
  omega

/-! ### Matching a rule -/

/-- A call that has a course at some depth has the same course within the limit. -/
theorem Runs.depthLimit (h : Runs g n (.rule id) c steps o) :
    Runs g (g.depthLimit c) (.rule id) c steps o := by
  obtain ⟨steps', o', h'⟩ := (stable_depthLimit g c).ends (.refl c) ⟨steps, o, h⟩
  obtain ⟨rfl, rfl⟩ := h.unique h'
  exact h'

/-- **A match that has a course takes it**, whoever observes it. -/
theorem matchRule_run_of_runs (h : Runs g n (.rule id) c steps o) (w : Watch σ) (mode : MatchMode)
    (m : Monitor σ) : (g.matchRule w id c mode).run m = .ok (o, m.replay w steps) :=
  callRule_run_of_runs h.depthLimit w mode m

end Engine

end PegGrammar
