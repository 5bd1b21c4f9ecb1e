import Mathlib.Data.Fintype.EquivFin
import Mathlib.Logic.Relation
import Mathlib.Order.WellFounded
import PegGrammar.Expr.Combinators
import PegGrammar.Proofs.EntryPoints

/-!
# Grammars without left recursion terminate

A rule *left-calls* another if a call of the first can lead to a call of the second before
anything is consumed. Which elements of a sequence can match without consuming is approximated by
`Nullable`, the least set closed under the obvious rules. If none of the rules that a rule refers
to, directly or not, left-calls itself in a circle, then matching that rule returns, at every
position of every text.

## The measure

Three things get smaller, in this order: the text that is left, the rule in the order of left
calls, and the expression. A sequence element that consumes shortens the text; one that does not
is nullable (`Runs.nullable`), so what stands behind it is still in a left place. A round of a
repetition either consumes or is the last. Operands that can match the empty text, which the usual
notion of a well-formed grammar forbids under `*` and `+`, therefore need no special treatment.

## Main definitions

* `Nullable` — expressions that may match without consuming
* `LeftOccurs`, `LeftCalls` — what can be called before anything is consumed
* `Refers` — what a rule refers to at any place

## Main results

* `Runs.nullable` — what matches without consuming is nullable
* `terminates_of_left` — an expression terminates if what it can call does
* `attempt_returns_of_no_left_cycle` — attempts of rules without left recursion return
-/

namespace PegGrammar

open Engine Relation

variable {g : Grammar}

/-! ### Left calls -/

/-- An expression that may match without consuming anything. -/
inductive Nullable (g : Grammar) : Expr → Prop
  /-- The empty literal. -/
  | emptyLiteral : Nullable g (.terminal (.literal ""))
  /-- The end of the text. -/
  | endOfInput : Nullable g (.terminal .endOfInput)
  /-- Every `e?`. -/
  | optional {e : Expr} : Nullable g (.repeated e .zeroToOne)
  /-- Every `e*`. -/
  | star {e : Expr} : Nullable g (.repeated e .zeroToMany)
  /-- `e+` if `e` is. -/
  | plus {e : Expr} : Nullable g e → Nullable g (.repeated e .oneToMany)
  /-- A sequence if all its elements are. -/
  | sequence {es : List Expr} : (∀ e ∈ es, Nullable g e) → Nullable g (.sequence es)
  /-- A choice if some alternative is. -/
  | choice {es : List Expr} {e : Expr} : e ∈ es → Nullable g e → Nullable g (.choice es)
  /-- A rule if some alternative is. -/
  | rule {id : RuleId} {r : Rule} {e : Expr} : g.rule? id = some r → e ∈ r.alternatives →
    Nullable g e → Nullable g (.rule id)

/-- The rule `s` occurs in the expression at a place that is reached without passing an element of
a sequence that is not nullable. -/
inductive LeftOccurs (g : Grammar) (s : RuleId) : Expr → Prop
  /-- The reference itself. -/
  | rule : LeftOccurs g s (.rule s)
  /-- In an element of a sequence behind nullable ones. -/
  | sequence {before after : List Expr} {e : Expr} : (∀ b ∈ before, Nullable g b) →
    LeftOccurs g s e → LeftOccurs g s (.sequence (before ++ e :: after))
  /-- In an alternative. -/
  | choice {es : List Expr} {e : Expr} : e ∈ es → LeftOccurs g s e → LeftOccurs g s (.choice es)
  /-- In the operand of a repetition. -/
  | repeated {e : Expr} {bounds : Bounds} : LeftOccurs g s e →
    LeftOccurs g s (.repeated e bounds)

/-- The rule `r` left-calls the rule `s`. -/
def LeftCalls (g : Grammar) (r s : RuleId) : Prop :=
  ∃ rule e, g.rule? r = some rule ∧ e ∈ rule.alternatives ∧ LeftOccurs g s e

/-- The rule `r` refers to the rule `s`, at any place of any alternative. -/
def Refers (g : Grammar) (r s : RuleId) : Prop :=
  ∃ rule, g.rule? r = some rule ∧ s ∈ Expr.refsAll rule.alternatives

/-- A place on the left is a place. So what is known of all rules that an expression refers to is
known of those that it can call first. -/
theorem LeftOccurs.mem_refs {s : RuleId} {e : Expr} (h : LeftOccurs g s e) : s ∈ e.refs := by
  induction h with
  | rule => exact List.mem_singleton.mpr rfl
  | sequence _ _ ih => exact mem_refsAll_iff.mpr ⟨_, by simp, ih⟩
  | choice he _ ih => exact mem_refsAll_iff.mpr ⟨_, he, ih⟩
  | repeated _ ih => exact ih

/-- The rules on the left of a sequence, element by element, which is the form that the recursion
over the elements needs. -/
theorem leftOccurs_sequence_cons_iff {s : RuleId} {e : Expr} {es : List Expr} :
    LeftOccurs g s (.sequence (e :: es)) ↔
      LeftOccurs g s e ∨ (Nullable g e ∧ LeftOccurs g s (.sequence es)) := by
  constructor
  · intro h
    generalize hsplit : e :: es = elements at h
    cases h with
    | @sequence before after inner hb h =>
      rcases List.cons_eq_append_iff.mp hsplit with ⟨rfl, hhead⟩ | ⟨tail, rfl, rfl⟩
      · cases hhead
        exact Or.inl h
      · obtain ⟨he, htail⟩ := List.forall_mem_cons.mp hb
        exact Or.inr ⟨he, .sequence htail h⟩
  · rintro (h | ⟨he, h⟩)
    · have hnil : LeftOccurs g s (.sequence ([] ++ e :: es)) :=
        .sequence (fun _ hb => absurd hb List.not_mem_nil) h
      exact hnil
    · cases h with
      | @sequence before after inner hb h =>
        have hcons : LeftOccurs g s (.sequence ((e :: before) ++ inner :: after)) :=
          .sequence (List.forall_mem_cons.mpr ⟨he, hb⟩) h
        exact hcons

theorem Nullable.eq_empty_of_literal {s : String} (h : Nullable g (.literal s)) : s = "" := by
  generalize he : Expr.literal s = e at h
  cases h <;> simp_all [Expr.literal]

/-- No rule of a built grammar refers to a rule that it does not have, so a walk along references
stays inside the table. -/
theorem Refers.declares {r s : RuleId} (h : Refers g r s) : g.Declares s := by
  obtain ⟨rule, hr, hs⟩ := h
  exact Grammar.declares_of_mem_refsAll hr s hs

/-! ### What does not consume is nullable -/

/-- Only the empty literal and the end of the text can be accepted without moving on: each of the
other terminals takes a character, and no character has an empty encoding. -/
theorem Terminal.nullable_of_accept? {t : Terminal} {c stop : Cursor}
    (h : t.accept? c = some stop) (hoff : stop.offset = c.offset) : Nullable g (.terminal t) := by
  have hnext : ∀ p : Char → Bool, c.next? p ≠ some stop := by
    intro p hp
    obtain ⟨x, _, _, hx⟩ := Cursor.next?_eq_some_iff.mp hp
    have := x.utf8Size_pos
    omega
  cases t with
  | literal s =>
    obtain ⟨_, hs⟩ := Cursor.skip?_eq_some_iff.mp h
    have hempty : s.toList = [] := Text.byteLength_eq_zero_iff.mp (by omega)
    rw [String.toList_eq_nil_iff.mp hempty]
    exact .emptyLiteral
  | charSet set => exact absurd h (hnext _)
  | charRange first last => exact absurd h (hnext _)
  | any => exact absurd h (hnext _)
  | endOfInput => exact .endOfInput

namespace Outcome

@[simp] theorem end?_map {α β : Type} (f : α → β) (o : Outcome α) : (o.map f).end? = o.end? := by
  cases o <;> rfl

@[simp] theorem end?_enclose (label : Label) (c : Cursor) (o : Outcome (List (Node Unit))) :
    (o.enclose label c).end? = o.end? := by
  cases o <;> rfl

/-- A match does not end before it began, which settles the arithmetic in the cases of
`RunsEach.nullable`. -/
theorem InReach.offset_le_of_end? {α : Type} {o : Outcome α} {c : Cursor} {i : Nat}
    (h : o.InReach c) (hi : o.end? = some i) : c.offset ≤ i := by
  cases o with
  | matched value stop =>
    rw [← Option.some.inj hi]
    exact Cursor.Reaches.offset_le h
  | failed offset => cases hi

end Outcome

namespace Engine

mutual

theorem Runs.nullable {n : Nat} {e : Expr} {c : Cursor} {steps : List Step}
    {o : Outcome (Node Unit)} : Runs g n e c steps o → o.end? = some c.offset → Nullable g e
  | .accepted h ho, hend => by
    rw [ho] at hend
    exact Terminal.nullable_of_accept? h (Option.some.inj hend)
  | .rejected _, hend => nomatch hend
  | .sequence h ho, hend => by
    rw [ho, Outcome.end?_enclose] at hend
    exact .sequence (h.nullable hend)
  | .choice h ho, hend => by
    rw [ho, Outcome.end?_enclose, Outcome.end?_map] at hend
    obtain ⟨e, he, hnull⟩ := h.nullable hend
    exact .choice he hnull
  | @Runs.repeated _ _ _ bounds _ _ _ _ h ho, hend => by
    rw [ho, Outcome.end?_enclose] at hend
    cases bounds with
    | zeroToOne => exact .optional
    | zeroToMany => exact .star
    | oneToMany => exact .plus (h.nullable hend Nat.zero_lt_one)
  | .rule hr h ho, hend => by
    rw [ho, Outcome.end?_enclose, Outcome.end?_map] at hend
    obtain ⟨e, he, hnull⟩ := h.nullable hend
    exact .rule hr he hnull

/-- If all elements together consumed nothing, then none of them did. -/
theorem RunsEach.nullable {n : Nat} {es : List Expr} {c : Cursor} {steps : List Step}
    {o : Outcome (List (Node Unit))} :
    RunsEach g n es c steps o → o.end? = some c.offset → ∀ e ∈ es, Nullable g e
  | .nil, _ => fun _ he => absurd he List.not_mem_nil
  | .cons h hs, hend => by
    rw [Outcome.end?_map] at hend
    -- the cursors in between are squeezed between two equal offsets
    have hle := Cursor.Reaches.offset_le h.inReach
    have hge := hs.inReach.offset_le_of_end? hend
    have heq := Nat.le_antisymm hge hle
    refine List.forall_mem_cons.mpr ⟨h.nullable (congrArg some heq), hs.nullable ?_⟩
    rw [hend, heq]
  | .stuck _, hend => nomatch hend

/-- The alternative that matched is the one that is nullable; about those before it nothing can be
said. -/
theorem RunsFirst.nullable {n : Nat} {es : List Expr} {c : Cursor} {furthest : Nat}
    {steps : List Step} {o : Outcome (Node Unit)} :
    RunsFirst g n es c furthest steps o → o.end? = some c.offset → ∃ e ∈ es, Nullable g e
  | .nil, hend => nomatch hend
  | .hit h, hend => ⟨_, List.mem_cons_self, h.nullable hend⟩
  | .miss _ hs, hend => by
    obtain ⟨e, he, hnull⟩ := hs.nullable hend
    exact ⟨e, List.mem_cons_of_mem _ he, hnull⟩

/-- Only the rounds below the minimum make their operand nullable. A repetition that is free to have
no rounds is nullable whatever its operand is. -/
theorem RunsMany.nullable {n : Nat} {e : Expr} {bounds : Bounds} {count : Nat} {c : Cursor}
    {steps : List Step} {o : Outcome (List (Node Unit))} :
    RunsMany g n e bounds count c steps o → o.end? = some c.offset → count < bounds.min →
      Nullable g e
  | .full hb, _, hc => by
    -- bounds that allow no more rounds have had enough of them
    cases bounds <;> simp [Bounds.min, Bounds.allowsMore, Bounds.max?] at hb hc
  | .enough _ _ hmin, _, hc => absurd hmin (Nat.not_le_of_lt hc)
  | .tooFew _ _ _, hend, _ => nomatch hend
  | .idle _ h _, hend, _ => h.nullable hend
  | .again _ h hs hm, hend, _ => by
    rw [Outcome.end?_map] at hend
    have hlt := (Cursor.Reaches.length_lt_iff h.inReach).mp hs
    have hge := hm.inReach.offset_le_of_end? hend
    omega

end

/-! ### Termination -/

/-- Matching the expression at the cursor comes to an end. -/
def Terminates (g : Grammar) (e : Expr) (c : Cursor) : Prop := ∃ n steps o, Runs g n e c steps o

/-- All rules on the list terminate at every cursor ahead of `c` that has less text left. -/
def TerminatesLater (g : Grammar) (ids : List RuleId) (c : Cursor) : Prop :=
  ∀ d, c.Reaches d → d.rest.length < c.rest.length → ∀ s ∈ ids, Terminates g (.rule s) d

/-- The induction hypothesis on the length of the text can be taken along when the cursor moves
on. -/
theorem TerminatesLater.of_reaches {ids : List RuleId} {c d : Cursor}
    (h : TerminatesLater g ids c) (hd : c.Reaches d) : TerminatesLater g ids d := by
  intro f hf hlt s hs
  have hless : f.rest.length < c.rest.length := Nat.lt_of_lt_of_le hlt hd.length_le
  exact h f (hd.trans hf) hless s hs

/-- It can be taken along to the parts of an expression as well, which refer to fewer rules. -/
theorem TerminatesLater.subset {ids ids' : List RuleId} {c : Cursor}
    (h : TerminatesLater g ids c) (hsub : ids' ⊆ ids) : TerminatesLater g ids' c := by
  intro d hd hlt s hs
  exact h d hd hlt s (hsub hs)

/-- A repetition terminates if its operand does, here and further on. -/
theorem terminatesMany {e : Expr} (bounds : Bounds) (count : Nat) {c : Cursor}
    (h : ∀ d, c.Reaches d → Terminates g e d) :
    ∃ n steps o, RunsMany g n e bounds count c steps o := by
  induction hlen : c.rest.length using Nat.strongRecOn generalizing count c with
  | _ len ih =>
  cases hb : bounds.allowsMore count with
  | false => exact ⟨0, [], _, .full hb⟩
  | true =>
    obtain ⟨n, round, o, hrun⟩ := h c (.refl c)
    cases o with
    | failed offset =>
      rcases Nat.lt_or_ge count bounds.min with hc | hc
      · exact ⟨n, round, _, .tooFew hb hrun hc⟩
      · exact ⟨n, round, _, .enough hb hrun hc⟩
    | matched node stop =>
      by_cases hlt : stop.rest.length < c.rest.length
      · have hreach : c.Reaches stop := hrun.inReach
        have hlater : ∀ d, stop.Reaches d → Terminates g e d := by
          intro d hd
          exact h d (hreach.trans hd)
        obtain ⟨k, more, others, hmore⟩ := ih _ (hlen ▸ hlt) (count + 1) hlater rfl
        exact ⟨max n k, _, _, .again_max hb hrun hlt hmore⟩
      · exact ⟨n, round, _, .idle hb hrun hlt⟩

mutual

/-- **An expression terminates if the rules it can call do**: those in a left place at the same
cursor, and all of them further on. -/
theorem terminates_of_left : ∀ (e : Expr) {c : Cursor},
    (∀ s, LeftOccurs g s e → Terminates g (.rule s) c) → TerminatesLater g e.refs c →
    Terminates g e c
  | .terminal t, c, _, _ => by
    cases h : t.accept? c with
    | some stop => exact ⟨0, _, _, .accepted h rfl⟩
    | none => exact ⟨0, _, _, .rejected h⟩
  | .sequence es, _, hleft, hlater => by
    obtain ⟨n, steps, o, h⟩ := terminatesEach es hleft hlater
    exact ⟨n, _, _, .sequence h rfl⟩
  | .choice es, c, hleft, hlater => by
    have hes : ∀ s, ∀ e ∈ es, LeftOccurs g s e → Terminates g (.rule s) c := by
      intro s e he hs
      exact hleft s (.choice he hs)
    obtain ⟨n, steps, o, h⟩ := terminatesFirst es hes hlater c.offset
    exact ⟨n, _, _, .choice h rfl⟩
  | .repeated e bounds, c, hleft, hlater => by
    have hoperand : ∀ d, c.Reaches d → Terminates g e d := by
      intro d hd
      refine terminates_of_left e ?_ (hlater.of_reaches hd)
      intro s hs
      -- at the cursor itself the operand is in a left place, and further on that does not matter
      rcases Nat.lt_or_ge d.rest.length c.rest.length with hlt | hge
      · exact hlater d hd hlt s hs.mem_refs
      · rw [hd.eq_of_length_le hge]
        exact hleft s (.repeated hs)
    obtain ⟨n, steps, o, h⟩ := terminatesMany bounds 0 hoperand
    exact ⟨n, _, _, .repeated h rfl⟩
  | .rule id, _, hleft, _ => hleft id .rule

/-- The elements of a sequence, where the hypothesis on left places is about the whole of them: what
stands behind an element that consumed nothing is still on the left. -/
theorem terminatesEach : ∀ (es : List Expr) {c : Cursor},
    (∀ s, LeftOccurs g s (.sequence es) → Terminates g (.rule s) c) →
    TerminatesLater g (Expr.refsAll es) c → ∃ n steps o, RunsEach g n es c steps o
  | [], _, _, _ => ⟨0, [], _, .nil⟩
  | e :: es, c, hleft, hlater => by
    have hhead : ∀ s, LeftOccurs g s e → Terminates g (.rule s) c := by
      intro s hs
      exact hleft s (leftOccurs_sequence_cons_iff.mpr (Or.inl hs))
    obtain ⟨n, first, o, hrun⟩ :=
      terminates_of_left e hhead (hlater.subset (List.subset_append_left _ _))
    cases o with
    | failed offset => exact ⟨n, first, _, .stuck hrun⟩
    | matched node stop =>
      have hreach : c.Reaches stop := hrun.inReach
      have hrest : TerminatesLater g (Expr.refsAll es) c :=
        hlater.subset (List.subset_append_right _ _)
      have hstop : ∀ s, LeftOccurs g s (.sequence es) → Terminates g (.rule s) stop := by
        intro s hs
        rcases Nat.lt_or_ge stop.rest.length c.rest.length with hlt | hge
        · exact hrest stop hreach hlt s hs.mem_refs
        · -- nothing was consumed, so `e` is nullable and what follows it is in a left place
          obtain rfl := hreach.eq_of_length_le hge
          exact hleft s (leftOccurs_sequence_cons_iff.mpr (Or.inr ⟨hrun.nullable rfl, hs⟩))
      obtain ⟨k, more, others, hmore⟩ := terminatesEach es hstop (hrest.of_reaches hreach)
      exact ⟨max n k, _, _, .cons_max hrun hmore⟩

/-- The alternatives of a choice are all tried at the same cursor, so every one of them is on the
left. -/
theorem terminatesFirst : ∀ (es : List Expr) {c : Cursor},
    (∀ s, ∀ e ∈ es, LeftOccurs g s e → Terminates g (.rule s) c) →
    TerminatesLater g (Expr.refsAll es) c →
    ∀ furthest, ∃ n steps o, RunsFirst g n es c furthest steps o
  | [], _, _, _, _ => ⟨0, [], _, .nil⟩
  | e :: es, c, hleft, hlater, furthest => by
    obtain ⟨n, first, o, hrun⟩ :=
      terminates_of_left e (fun s hs => hleft s e List.mem_cons_self hs)
        (hlater.subset (List.subset_append_left _ _))
    cases o with
    | matched node stop => exact ⟨n, first, _, .hit hrun⟩
    | failed offset =>
      obtain ⟨k, more, o, hmore⟩ := terminatesFirst es
        (fun s e he hs => hleft s e (List.mem_cons_of_mem _ he) hs)
        (hlater.subset (List.subset_append_right _ _)) (max furthest offset)
      exact ⟨max n k, _, _, .miss_max hrun hmore⟩

end

/-! ### Rules -/

/-- `s` is `id` or can be referred to from it in some number of steps. -/
abbrev Reachable (g : Grammar) (id s : RuleId) : Prop := ReflTransGen (Refers g) id s

theorem Reachable.declares {id s : RuleId} (hid : g.Declares id) (h : Reachable g id s) :
    g.Declares s := by
  cases h with
  | refl => exact hid
  | tail _ hs => exact hs.declares

/-- Left calls among the rules that can be referred to from `id` are well-founded if none of them
left-calls itself in a circle: there are only finitely many rules. -/
theorem wellFounded_leftCalls {id : RuleId} (hid : g.Declares id)
    (hacyclic : ∀ s, Reachable g id s → ¬ TransGen (LeftCalls g) s s) :
    WellFounded fun s r : { s // Reachable g id s } => TransGen (LeftCalls g) r s := by
  have hfinite : Finite { s // Reachable g id s } := by
    refine Finite.of_injective (β := Fin g.rules.size)
      (fun s => ⟨s.1.index, s.2.declares hid⟩) ?_
    intro s t hst
    exact Subtype.ext (congrArg RuleId.mk (Fin.mk.inj hst))
  have htrans : IsTrans { s // Reachable g id s } fun s r => TransGen (LeftCalls g) r.1 s.1 :=
    ⟨fun _ _ _ hab hbc => hbc.trans hab⟩
  have hirrefl : Std.Irrefl fun s r : { s // Reachable g id s } => TransGen (LeftCalls g) r.1 s.1 :=
    ⟨fun s hs => hacyclic s.1 s.2 hs⟩
  exact Finite.wellFounded_of_trans_of_irrefl _

/-- **A rule without left recursion terminates everywhere**: by induction on the text that is
left, and for the same text on the order of left calls. -/
theorem terminates_rule {id : RuleId} (hid : g.Declares id)
    (hacyclic : ∀ s, Reachable g id s → ¬ TransGen (LeftCalls g) s s)
    (s : { s // Reachable g id s }) (c : Cursor) : Terminates g (.rule s) c := by
  induction hlen : c.rest.length using Nat.strongRecOn generalizing s c with
  | _ len ihText =>
  induction s using (wellFounded_leftCalls hid hacyclic).induction with
  | _ s ihRule =>
  obtain ⟨r, hr⟩ := Grammar.declares_iff_exists_rule?.mp (s.2.declares hid)
  have hreach : ∀ t ∈ Expr.refsAll r.alternatives, Reachable g id t := by
    intro t ht
    exact s.2.tail ⟨r, hr, ht⟩
  have hleft : ∀ t, ∀ e ∈ r.alternatives, LeftOccurs g t e → Terminates g (.rule t) c := by
    intro t e he ht
    exact ihRule ⟨t, hreach t (mem_refsAll_iff.mpr ⟨e, he, ht.mem_refs⟩)⟩
      (.single ⟨r, e, hr, he, ht⟩)
  have hlater : TerminatesLater g (Expr.refsAll r.alternatives) c := by
    intro d _ hlt t ht
    exact ihText _ (hlen ▸ hlt) ⟨t, hreach t ht⟩ d rfl
  obtain ⟨n, steps, o, h⟩ := terminatesFirst r.alternatives hleft hlater c.offset
  exact ⟨n + 1, _, _, .rule hr h rfl⟩

end Engine

/-- **Grammars without left recursion terminate.** If no rule that `id` refers to in any number of
steps, `id` included, lies on a circle of left calls, then matching `id` returns at every position
of every text, after the finitely many steps of its course, and an attempt returns the same as
long as it accepts the length of the text. Both do so in either mode. -/
theorem attempt_returns_of_no_left_cycle {id : RuleId} (hid : g.Declares id)
    (hacyclic : ∀ s, ReflTransGen (Refers g) id s → ¬ TransGen (LeftCalls g) s s)
    {text : String} {i : Nat} (hi : Text.isBoundary text.toList i = true) :
    ∃ c n steps o, Cursor.at? text.toList i = some c ∧ Runs g n (.rule id) c steps o ∧
      ∀ mode : MatchMode,
      (∀ (σ : Type) (w : Watch σ) (m : Monitor σ),
        (g.matchRule w id c mode).run m = .ok (o, m.replay w steps)) ∧
      (Text.byteLength text.toList ≤ maxInputLength → g.attempt id text i mode = .ok o) := by
  obtain ⟨c, hc⟩ := Cursor.exists_at?_of_isBoundary hi
  obtain ⟨n, steps, o, h⟩ := terminates_rule hid hacyclic ⟨id, .refl⟩ c
  exact ⟨c, n, steps, o, hc, h, fun mode => ⟨fun σ w m => matchRule_run_of_runs h w mode m,
    fun hlen => Grammar.attempt_eq_ok hlen hc h mode⟩⟩

/-- Lines of letters, each behind blanks that may be missing. The blanks are a repetition of
repetitions, so every operand under `+` can match the empty text. -/
def lines : Grammar where
  rules := #[
    ⟨"line", [.sequence [.rule ⟨1⟩, .literal "é", .rule ⟨0⟩], .terminal .endOfInput], nofun⟩,
    ⟨"blanks", [.repeated (.repeated (.repeated (.literal " ") .zeroToOne) .zeroToMany) .oneToMany],
      nofun⟩]
  start := ⟨0⟩
  valid := rfl

/-- The only left call of `lines` is that of the blanks. -/
theorem lines_leftCalls {r s : RuleId} (h : LeftCalls lines r s) : r = ⟨0⟩ ∧ s = ⟨1⟩ := by
  obtain ⟨rule, e, hr, he, hs⟩ := h
  have hindex : r.index < 2 := Grammar.declares_of_rule? hr
  obtain ⟨index⟩ := r
  match index, hindex with
  | 0, _ =>
    cases hr
    rcases List.mem_cons.mp he with rfl | he
    · rw [leftOccurs_sequence_cons_iff, leftOccurs_sequence_cons_iff] at hs
      rcases hs with hs | ⟨_, hs | ⟨hnull, _⟩⟩
      · cases hs
        exact ⟨rfl, rfl⟩
      · cases hs
      · exact absurd hnull.eq_empty_of_literal (by decide)
    · cases List.mem_singleton.mp he
      cases hs
  | 1, _ =>
    cases hr
    cases List.mem_singleton.mp he
    rcases hs with _ | _ | _ | ⟨_ | _ | _ | ⟨_ | _ | _ | ⟨⟨⟩⟩⟩⟩

theorem lines_attempt_returns :
    ∃ c n steps o, Cursor.at? "  é é".toList 2 = some c ∧ Runs lines n (.rule ⟨0⟩) c steps o ∧
      lines.attempt ⟨0⟩ "  é é" 2 .syntactic = .ok o := by
  have hacyclic : ∀ s, ReflTransGen (Refers lines) ⟨0⟩ s → ¬ TransGen (LeftCalls lines) s s := by
    intro s _ hcycle
    obtain ⟨_, hfirst, _⟩ := TransGen.head'_iff.mp hcycle
    obtain ⟨_, _, hlast⟩ := TransGen.tail'_iff.mp hcycle
    have hzero := (lines_leftCalls hfirst).1
    rw [(lines_leftCalls hlast).2] at hzero
    cases hzero
  have hid : lines.Declares ⟨0⟩ := by decide
  have hi : Text.isBoundary "  é é".toList 2 = true := by decide
  obtain ⟨c, n, steps, o, hc, hrun, hreturns⟩ :=
    attempt_returns_of_no_left_cycle hid hacyclic hi
  exact ⟨c, n, steps, o, hc, hrun, (hreturns .syntactic).2 (by decide)⟩

end PegGrammar
