import Mathlib.Data.List.Forall2
import Mathlib.Logic.Relation
import PegGrammar.Expr.Combinators
import PegGrammar.Proofs.EntryPoints
import PegGrammar.Proofs.Laws
import PegGrammar.Proofs.Subexpressions

/-!
# Rewriting a grammar

The rules of a grammar may be rewritten by the laws of expressions, at any place and at any depth
of any alternative, and a reference to a rule may be replaced by the choice between the
alternatives of that rule, even inside the rule itself. The rewritten table of rules is a grammar
again, and every rule matches in it as it did before.

## Why it is not enough that the alternatives match alike

In a grammar with a single rule `A` that has the alternative `a`, the expressions `a` and `A` match
alike. Yet `A` must not be rewritten to have the alternative `A`, or it never returns. What matters
is that rewriting does not make calls nest deeper: the rewritten alternatives have each outcome at
the depth at which the old ones have it. Outcomes then carry over to the new grammar by induction
on the depth. In the other direction depth is no concern, since a reference that was replaced needs
only one level more to be put back.

`Passes g n g' m e e'` is the common form of both directions: what `e` has for an outcome in `g` at
depth `n` is an outcome of `e'` in `g'` at depth `m`.

## Main definitions

* `Expr.Rewrites`, `Grammar.RewritesTo` — rewriting an expression, and a grammar
* `Engine.Passes` — outcomes that carry over

## Main results

* `Expr.Rewrites.fits` — rewriting leaves no reference open and no combination empty
* `Expr.Rewrites.passes`, `passes_back` — the two directions for one expression
* `rewriting_keeps_matching` — rewriting a grammar changes no outcome
-/

namespace PegGrammar

open Engine Relation

/-! ### Rewriting expressions -/

/-- The second expression is the first with one part of it rewritten, in a grammar `g`. -/
inductive Expr.Rewrites (g : Grammar) : Expr → Expr → Prop
  /-- The elements of a sequence are put into the sequence around it. -/
  | splice_sequence (before es after : List Expr) :
    Rewrites g (.sequence (before ++ .sequence es :: after)) (.sequence (before ++ es ++ after))
  /-- A sequence of one element is replaced by the element. -/
  | only_element (e : Expr) : Rewrites g (.sequence [e]) e
  /-- The alternatives of a choice are put into the choice around it. -/
  | splice_choice (before es after : List Expr) :
    Rewrites g (.choice (before ++ .choice es :: after)) (.choice (before ++ es ++ after))
  /-- A choice of one alternative is replaced by the alternative. -/
  | only_alternative (e : Expr) : Rewrites g (.choice [e]) e
  /-- `e+` is replaced by `e e*`. -/
  | split_plus (e : Expr) :
    Rewrites g (.repeated e .oneToMany) (.sequence [e, .repeated e .zeroToMany])
  /-- A repetition of a repetition is replaced by one repetition. -/
  | merge_repeated (e : Expr) (inner outer : Bounds) :
    Rewrites g (.repeated (.repeated e inner) outer) (.repeated e (inner.compose outer))
  /-- A reference is replaced by the alternatives of the rule. -/
  | inline {id : RuleId} {r : Rule} :
    g.rule? id = some r → Rewrites g (.rule id) (.choice r.alternatives)
  /-- An element of a sequence is rewritten. -/
  | in_sequence (before after : List Expr) {e e' : Expr} : Rewrites g e e' →
    Rewrites g (.sequence (before ++ e :: after)) (.sequence (before ++ e' :: after))
  /-- An alternative of a choice is rewritten. -/
  | in_choice (before after : List Expr) {e e' : Expr} : Rewrites g e e' →
    Rewrites g (.choice (before ++ e :: after)) (.choice (before ++ e' :: after))
  /-- The operand of a repetition is rewritten. -/
  | in_repeated (bounds : Bounds) {e e' : Expr} : Rewrites g e e' →
    Rewrites g (.repeated e bounds) (.repeated e' bounds)

/-- The rules are those of the grammar with any number of parts of their alternatives rewritten. -/
def Grammar.RewritesTo (g : Grammar) (rules : Array Rule) : Prop :=
  List.Forall₂ (fun r r' => r'.name = r.name ∧
      List.Forall₂ (ReflTransGen (Expr.Rewrites g)) r.alternatives r'.alternatives)
    g.rules.toList rules.toList

/-! ### Rewritten rules are a grammar -/

namespace Expr

variable {size : Nat} {owner : String} {e e' : Expr} {es : List Expr}

/-- Nothing is wrong with the expression in a table of `size` rules. -/
def Fits (size : Nat) (e : Expr) : Prop :=
  ∀ part ∈ e.preorder, (∀ id, part = .rule id → id.index < size) ∧
    part ≠ .sequence [] ∧ part ≠ .choice []

theorem fits_sequence_iff : (sequence es).Fits size ↔ es ≠ [] ∧ ∀ e ∈ es, e.Fits size := by
  simp only [Fits, preorder, preorderAll_eq_flatMap, List.forall_mem_cons, List.forall_mem_flatMap]
  simp

theorem fits_choice_iff : (choice es).Fits size ↔ es ≠ [] ∧ ∀ e ∈ es, e.Fits size := by
  simp only [Fits, preorder, preorderAll_eq_flatMap, List.forall_mem_cons, List.forall_mem_flatMap]
  simp

theorem fits_repeated_iff {bounds : Bounds} : (repeated e bounds).Fits size ↔ e.Fits size := by
  simp [Fits, preorder]

/-- The check that a builder makes finds nothing exactly if every alternative fits. -/
theorem violationAny?_eq_none_iff :
    violationAny? size owner es = none ↔ ∀ e ∈ es, e.Fits size := by
  simp only [violationAny?_eq_findSome?, List.findSome?_eq_none_iff, preorderAll_eq_flatMap,
    List.forall_mem_flatMap, defect?_eq_none_iff, Fits]

end Expr

/-- A table has nothing wrong if its start is declared and its alternatives fit. -/
theorem violation?_eq_none_iff {rules : Array Rule} {start : RuleId} :
    violation? rules start = none ↔
      start.index < rules.size ∧ ∀ r ∈ rules.toList, ∀ e ∈ r.alternatives, e.Fits rules.size := by
  rw [violation?]
  split
  next hstart =>
    simp only [List.findSome?_eq_none_iff, Expr.violationAny?_eq_none_iff, hstart, true_and]
  next hstart => simp [hstart]

/-- A grammar carries the proof that its table was checked, so whatever is put in place of a call
fits as well. -/
theorem Grammar.fits_of_rule? {g : Grammar} {id : RuleId} {r : Rule} (hr : g.rule? id = some r) :
    ∀ e ∈ r.alternatives, e.Fits g.rules.size :=
  (violation?_eq_none_iff.mp g.valid).2 r (Array.mem_toList_iff.mpr (Array.mem_of_getElem? hr))

namespace Expr

variable {g : Grammar} {e e' : Expr}

/-- **Rewriting leaves no reference open and no combination empty.** -/
theorem Rewrites.fits (h : Rewrites g e e') (he : e.Fits g.rules.size) :
    e'.Fits g.rules.size := by
  induction h with
  | splice_sequence before es after =>
    simp only [fits_sequence_iff, List.forall_mem_append, List.forall_mem_cons] at he ⊢
    obtain ⟨-, hbefore, ⟨hes, hfits⟩, hafter⟩ := he
    exact ⟨by simp [hes], ⟨hbefore, hfits⟩, hafter⟩
  | only_element e => exact (fits_sequence_iff.mp he).2 e (List.mem_singleton.mpr rfl)
  | splice_choice before es after =>
    simp only [fits_choice_iff, List.forall_mem_append, List.forall_mem_cons] at he ⊢
    obtain ⟨-, hbefore, ⟨hes, hfits⟩, hafter⟩ := he
    exact ⟨by simp [hes], ⟨hbefore, hfits⟩, hafter⟩
  | only_alternative e => exact (fits_choice_iff.mp he).2 e (List.mem_singleton.mpr rfl)
  | split_plus e =>
    have hoperand : e.Fits g.rules.size := fits_repeated_iff.mp he
    rw [fits_sequence_iff, List.forall_mem_cons, List.forall_mem_singleton]
    exact ⟨nofun, hoperand, fits_repeated_iff.mpr hoperand⟩
  | merge_repeated e inner outer =>
    exact fits_repeated_iff.mpr (fits_repeated_iff.mp (fits_repeated_iff.mp he))
  | @inline id r hr => exact fits_choice_iff.mpr ⟨r.alternatives_ne_nil, Grammar.fits_of_rule? hr⟩
  | in_sequence before after _ ih =>
    simp only [fits_sequence_iff, List.forall_mem_append, List.forall_mem_cons] at he ⊢
    obtain ⟨-, hbefore, hpart, hafter⟩ := he
    exact ⟨by simp, hbefore, ih hpart, hafter⟩
  | in_choice before after _ ih =>
    simp only [fits_choice_iff, List.forall_mem_append, List.forall_mem_cons] at he ⊢
    obtain ⟨-, hbefore, hpart, hafter⟩ := he
    exact ⟨by simp, hbefore, ih hpart, hafter⟩
  | in_repeated bounds _ ih => exact fits_repeated_iff.mpr (ih (fits_repeated_iff.mp he))

/-- The same for any number of rewritings, one after the other. -/
theorem fits_of_rewrites_many (h : ReflTransGen (Rewrites g) e e') (he : e.Fits g.rules.size) :
    e'.Fits g.rules.size := by
  induction h with
  | refl => exact he
  | tail _ hstep ih => exact hstep.fits ih

end Expr

/-- What stands at a place of the second list has a counterpart at the same place of the first. -/
theorem exists_getElem?_of_forall₂ {α β : Type} {R : α → β → Prop} {as : List α} {bs : List β}
    (h : List.Forall₂ R as bs) {i : Nat} {b : β} (hb : bs[i]? = some b) :
    ∃ a, as[i]? = some a ∧ R a b := by
  obtain ⟨hlength, hget⟩ := List.forall₂_iff_get.mp h
  obtain ⟨hi, rfl⟩ := List.getElem?_eq_some_iff.mp hb
  exact ⟨_, List.getElem?_eq_getElem (hlength ▸ hi), hget i (hlength ▸ hi) hi⟩

namespace Grammar

variable {g : Grammar} {rules : Array Rule}

theorem RewritesTo.size_eq (h : g.RewritesTo rules) : rules.size = g.rules.size := by
  simpa using h.length_eq.symm

/-- Rewritten rules are a grammar. -/
theorem RewritesTo.violation?_eq_none (h : g.RewritesTo rules) :
    violation? rules g.start = none := by
  obtain ⟨hstart, hfits⟩ := violation?_eq_none_iff.mp g.valid
  refine violation?_eq_none_iff.mpr ⟨h.size_eq ▸ hstart, fun r' hr' e' he' => ?_⟩
  obtain ⟨i, hi⟩ := List.mem_iff_getElem?.mp hr'
  obtain ⟨j, hj⟩ := List.mem_iff_getElem?.mp he'
  obtain ⟨r, hr, -, halternatives⟩ := exists_getElem?_of_forall₂ h hi
  obtain ⟨e, he, hrewrites⟩ := exists_getElem?_of_forall₂ halternatives hj
  rw [h.size_eq]
  exact Expr.fits_of_rewrites_many hrewrites
    (hfits r (List.mem_of_getElem? hr) e (List.mem_of_getElem? he))

end Grammar

/-! ### Outcomes that carry over -/

namespace Engine

variable {g g' g'' : Grammar} {n m k : Nat} {e e' e'' : Expr} {es es' : List Expr}
  {bounds : Bounds} {count : Nat} {id : RuleId} {c : Cursor} {furthest : Nat} {o : Outcome Unit}

/-- The outcomes of `e` in `g` at depth `n` are outcomes of `e'` in `g'` at depth `m`. -/
def Passes (g : Grammar) (n : Nat) (g' : Grammar) (m : Nat) (e e' : Expr) : Prop :=
  ∀ c o, Settles g n e c o → Settles g' m e' c o

/-- Passing is a preorder, in which the depth may grow from step to step. -/
theorem Passes.trans (h : Passes g n g' m e e') (h' : Passes g' m g'' k e' e'') :
    Passes g n g'' k e e'' :=
  fun c o hsettles => h' c o (h c o hsettles)

theorem passes_of_le (hn : n ≤ m) (e : Expr) : Passes g n g m e e := fun _ _ h => h.mono hn

/-- If the members of two lists pass one by one, so do the lists. The induction is on the lists and
not on courses, of which the two have different ones. -/
theorem settlesEach_of_passes (h : List.Forall₂ (Passes g n g' m) es es')
    (hes : SettlesEach g n es c o) : SettlesEach g' m es' c o := by
  induction h generalizing c with
  | nil => exact settlesEach_nil_iff.mpr (settlesEach_nil_iff.mp hes)
  | cons he _ ih =>
    rw [settlesEach_cons_iff] at hes ⊢
    rcases hes with ⟨stop, hfirst, hothers⟩ | ⟨offset, hfirst, ho⟩
    · exact Or.inl ⟨stop, he _ _ hfirst, ih hothers⟩
    · exact Or.inr ⟨offset, he _ _ hfirst, ho⟩

/-- The same for alternatives. The offset at which the search for the furthest failure stands is
carried along unchanged. -/
theorem settlesFirst_of_passes (h : List.Forall₂ (Passes g n g' m) es es')
    (hes : SettlesFirst g n es c furthest o) : SettlesFirst g' m es' c furthest o := by
  induction h generalizing furthest with
  | nil => exact settlesFirst_nil_iff.mpr (settlesFirst_nil_iff.mp hes)
  | cons he _ ih =>
    rw [settlesFirst_cons_iff] at hes ⊢
    rcases hes with ⟨stop, hfirst, ho⟩ | ⟨offset, hfirst, hothers⟩
    · exact Or.inl ⟨stop, he _ _ hfirst, ho⟩
    · exact Or.inr ⟨offset, he _ _ hfirst, ih hothers⟩

/-- Each round but the last shortens the text, which is what the induction is on. -/
theorem settlesMany_of_passes (h : Passes g n g' m e e')
    (he : SettlesMany g n e bounds count c o) : SettlesMany g' m e' bounds count c o := by
  induction hlength : c.rest.length using Nat.strongRecOn generalizing c count with
  | ind length ih =>
    subst hlength
    cases hb : bounds.allowsMore count with
    | false => exact (settlesMany_full_iff hb).mpr ((settlesMany_full_iff hb).mp he)
    | true =>
      rw [settlesMany_more_iff hb] at he ⊢
      rcases he with ⟨offset, hround, ho⟩ | ⟨stop, hround, hidle⟩ |
        ⟨stop, hround, hshorter, hmore⟩
      · exact Or.inl ⟨offset, h _ _ hround, ho⟩
      · exact Or.inr (Or.inl ⟨stop, h _ _ hround, hidle⟩)
      · exact Or.inr (Or.inr ⟨stop, h _ _ hround, hshorter, ih _ hshorter hmore rfl⟩)

theorem Passes.sequence (h : List.Forall₂ (Passes g n g' m) es es') :
    Passes g n g' m (.sequence es) (.sequence es') := by
  intro c o hsettles
  exact settles_sequence_iff.mpr (settlesEach_of_passes h (settles_sequence_iff.mp hsettles))

theorem Passes.choice (h : List.Forall₂ (Passes g n g' m) es es') :
    Passes g n g' m (.choice es) (.choice es') := by
  intro c o hsettles
  exact settles_choice_iff.mpr (settlesFirst_of_passes h (settles_choice_iff.mp hsettles))

theorem Passes.repeated (h : Passes g n g' m e e') (bounds : Bounds) :
    Passes g n g' m (.repeated e bounds) (.repeated e' bounds) := by
  intro c o hsettles
  exact settles_repeated_iff.mpr (settlesMany_of_passes h (settles_repeated_iff.mp hsettles))

/-- One part of a list passes, and the others do anyway. -/
theorem forall₂_passes_append_cons (hn : n ≤ m) (h : Passes g n g m e e')
    (before after : List Expr) :
    List.Forall₂ (Passes g n g m) (before ++ e :: after) (before ++ e' :: after) :=
  List.rel_append (List.forall₂_same.mpr fun part _ => passes_of_le hn part)
    (.cons h (List.forall₂_same.mpr fun part _ => passes_of_le hn part))

/-! ### Rules -/

/-- A call comes to what its alternatives come to one level down. This is the only place where the
depth of a course changes. -/
theorem settles_rule_iff :
    Settles g (n + 1) (.rule id) c o ↔
      ∃ r, g.rule? id = some r ∧ SettlesFirst g n r.alternatives c c.offset o := by
  constructor
  · rintro ⟨steps, _, hrun, rfl⟩
    obtain ⟨r, body, part, hr, hbody, rfl, -⟩ := runs_rule_iff.mp hrun
    exact ⟨r, hr, body, part, hbody, by simp⟩
  · rintro ⟨r, hr, body, part, hbody, rfl⟩
    exact ⟨_, _, .rule hr hbody rfl, by simp⟩

/-- At depth zero there are no calls, which starts the inductions on the depth. -/
theorem not_settles_rule_zero : ¬ Settles g 0 (.rule id) c o := by
  rintro ⟨steps, result, hrun, -⟩
  exact not_runs_rule_zero hrun

/-- Outcomes of expressions carry over between grammars if those of calls do. -/
theorem passes_of_rules (h : ∀ id, Passes g n g' m (.rule id) (.rule id)) (e : Expr) :
    Passes g n g' m e e := by
  induction e using Expr.elementInduction with
  | terminal t =>
    rintro c _ ⟨steps, result, hrun, rfl⟩
    exact ⟨steps, result, runs_terminal_iff.mpr (runs_terminal_iff.mp hrun), rfl⟩
  | sequence es ih => exact .sequence (List.forall₂_same.mpr ih)
  | choice es ih => exact .choice (List.forall₂_same.mpr ih)
  | repeated e bounds ih => exact .repeated ih bounds
  | rule id => exact h id

end Engine

/-! ### One expression -/

namespace Expr

variable {g : Grammar} {e e' : Expr}

/-- **Rewriting keeps outcomes**, without nesting calls deeper. -/
theorem Rewrites.passes (h : Rewrites g e e') (n : Nat) : Passes g n g n e e' := by
  induction h with
  | splice_sequence before es after =>
    exact fun c o => (alike_sequence_splice g before es after n c o).mp
  | only_element e => exact fun c o => (alike_sequence_singleton g e n c o).mp
  | splice_choice before es after =>
    exact fun c o => (alike_choice_splice g before es after n c o).mp
  | only_alternative e => exact fun c o => (alike_choice_singleton g e n c o).mp
  | split_plus e => exact fun c o => (alike_plus_sequence g e n c o).mp
  | merge_repeated e inner outer =>
    exact fun c o => (alike_repeated_repeated g e inner outer n c o).mp
  | inline hr =>
    intro c o hcall
    cases n with
    | zero => exact absurd hcall not_settles_rule_zero
    | succ n =>
      obtain ⟨r', hr', hfirst⟩ := settles_rule_iff.mp hcall
      cases hr.symm.trans hr'
      exact (settles_choice_iff.mpr hfirst).mono (Nat.le_succ n)
  | in_sequence before after _ ih =>
    exact .sequence (forall₂_passes_append_cons (Nat.le_refl n) ih before after)
  | in_choice before after _ ih =>
    exact .choice (forall₂_passes_append_cons (Nat.le_refl n) ih before after)
  | in_repeated bounds _ ih => exact .repeated ih bounds

/-- **Rewriting adds no outcomes.** A reference that was replaced is one level deeper. -/
theorem Rewrites.passes_back (h : Rewrites g e e') (n : Nat) : Passes g n g (n + 1) e' e := by
  have hn : n ≤ n + 1 := Nat.le_succ n
  induction h with
  | splice_sequence before es after =>
    exact fun c o hs => ((alike_sequence_splice g before es after n c o).mpr hs).mono hn
  | only_element e => exact fun c o hs => ((alike_sequence_singleton g e n c o).mpr hs).mono hn
  | splice_choice before es after =>
    exact fun c o hs => ((alike_choice_splice g before es after n c o).mpr hs).mono hn
  | only_alternative e => exact fun c o hs => ((alike_choice_singleton g e n c o).mpr hs).mono hn
  | split_plus e => exact fun c o hs => ((alike_plus_sequence g e n c o).mpr hs).mono hn
  | merge_repeated e inner outer =>
    exact fun c o hs => ((alike_repeated_repeated g e inner outer n c o).mpr hs).mono hn
  | inline hr => exact fun c o hs => settles_rule_iff.mpr ⟨_, hr, settles_choice_iff.mp hs⟩
  | in_sequence before after _ ih =>
    exact .sequence (forall₂_passes_append_cons hn ih before after)
  | in_choice before after _ ih =>
    exact .choice (forall₂_passes_append_cons hn ih before after)
  | in_repeated bounds _ ih => exact .repeated ih bounds

/-- Rewriting makes no expression deeper, however often it is done. -/
theorem passes_of_rewrites_many (h : ReflTransGen (Rewrites g) e e') (n : Nat) :
    Passes g n g n e e' := by
  induction h with
  | refl => exact passes_of_le (Nat.le_refl n) e
  | tail _ hstep ih => exact ih.trans (hstep.passes n)

/-- Undoing it may cost one level for each rule that was put in place of a call. The number is found
along the chain and does not depend on the text. -/
theorem exists_passes_back_of_rewrites_many (h : ReflTransGen (Rewrites g) e e') :
    ∃ k, ∀ n, Passes g n g (n + k) e' e := by
  induction h with
  | refl => exact ⟨0, fun n => passes_of_le (Nat.le_refl n) e⟩
  | tail _ hstep ih =>
    obtain ⟨k, hk⟩ := ih
    refine ⟨k + 1, fun n => (hstep.passes_back n).trans ?_⟩
    rw [Nat.add_comm k 1, ← Nat.add_assoc]
    exact hk (n + 1)

end Expr

/-! ### Whole grammars -/

/-- Bounds for the members of two lists have a common one. -/
theorem exists_bound_of_forall₂ {α β : Type} {R : Nat → α → β → Prop}
    (hmono : ∀ i j a b, i ≤ j → R i a b → R j a b) {as : List α} {bs : List β}
    (h : List.Forall₂ (fun a b => ∃ k, R k a b) as bs) : ∃ k, List.Forall₂ (R k) as bs := by
  induction h with
  | nil => exact ⟨0, .nil⟩
  | cons hab _ ih =>
    obtain ⟨i, hi⟩ := hab
    obtain ⟨j, hj⟩ := ih
    exact ⟨max i j, .cons (hmono _ _ _ _ (Nat.le_max_left i j) hi)
      (hj.imp fun a b => hmono _ _ a b (Nat.le_max_right i j))⟩

namespace Grammar

variable {g g' : Grammar} {id : RuleId} {r r' : Rule} {e : Expr} {c : Cursor} {o : Outcome Unit}

theorem rule?_eq_getElem?_toList (g : Grammar) (id : RuleId) :
    g.rule? id = g.rules.toList[id.index]? := by
  rw [rule?, Array.getElem?_toList]

/-- The outcomes of the old grammar are outcomes of the new one, at the same depth. By induction on
the depth: the alternatives of a rule are first rewritten in the old grammar, and what is called in
the rewritten ones is one level down. -/
theorem RewritesTo.passes (h : g.RewritesTo g'.rules) (n : Nat) (e : Expr) :
    Passes g n g' n e e := by
  induction n generalizing e with
  | zero => exact passes_of_rules (fun id c o hcall => absurd hcall not_settles_rule_zero) e
  | succ n ih =>
    refine passes_of_rules (fun id c o hcall => ?_) e
    obtain ⟨r, hr, hfirst⟩ := settles_rule_iff.mp hcall
    rw [rule?_eq_getElem?_toList] at hr
    obtain ⟨r', hr', -, halternatives⟩ := exists_getElem?_of_forall₂ h.flip hr
    rw [← rule?_eq_getElem?_toList] at hr'
    refine settles_rule_iff.mpr ⟨r', hr', settlesFirst_of_passes (halternatives.imp ?_) hfirst⟩
    exact fun old new hrewrites => (Expr.passes_of_rewrites_many hrewrites n).trans (ih new)

/-- How much deeper the alternatives of all rules become when rewriting is undone. -/
theorem RewritesTo.exists_depth {rules : Array Rule} (h : g.RewritesTo rules) :
    ∃ k, List.Forall₂ (fun r r' => List.Forall₂ (fun e e' => ∀ n, Passes g n g (n + k) e' e)
      r.alternatives r'.alternatives) g.rules.toList rules.toList := by
  have hmono : ∀ (i j : Nat) (e e' : Expr), i ≤ j → (∀ n, Passes g n g (n + i) e' e) →
      ∀ n, Passes g n g (n + j) e' e := by
    intro i j e e' hij hi n
    exact (hi n).trans (passes_of_le (Nat.add_le_add_left hij n) e)
  refine exists_bound_of_forall₂ (fun i j r r' hij hi => ?_) (h.imp ?_)
  · exact hi.imp fun e e' => hmono i j e e' hij
  · rintro r r' ⟨-, halternatives⟩
    exact exists_bound_of_forall₂ hmono
      (halternatives.imp fun e e' => Expr.exists_passes_back_of_rewrites_many)

/-- The outcomes of the new grammar are outcomes of the old one, at some greater depth. -/
theorem RewritesTo.exists_passes_back (h : g.RewritesTo g'.rules) :
    ∃ k, ∀ n e, Passes g' n g (n * (k + 1)) e e := by
  obtain ⟨k, hk⟩ := h.exists_depth
  refine ⟨k, fun n => ?_⟩
  induction n with
  | zero => exact passes_of_rules fun id c o hcall => absurd hcall not_settles_rule_zero
  | succ n ih =>
    refine passes_of_rules fun id c o hcall => ?_
    obtain ⟨r', hr', hfirst⟩ := settles_rule_iff.mp hcall
    rw [rule?_eq_getElem?_toList] at hr'
    obtain ⟨r, hr, halternatives⟩ := exists_getElem?_of_forall₂ hk hr'
    rw [← rule?_eq_getElem?_toList] at hr
    have hdepth : (n + 1) * (k + 1) = n * (k + 1) + k + 1 := by rw [Nat.succ_mul, Nat.add_assoc]
    rw [hdepth]
    refine settles_rule_iff.mpr ⟨r, hr, settlesFirst_of_passes ?_ hfirst⟩
    refine List.Forall₂.flip (halternatives.imp ?_)
    exact fun old new hback => (ih new).trans (hback _)

/-- **Rewriting a grammar changes no outcome** of any expression. -/
theorem RewritesTo.exists_settles_iff (h : g.RewritesTo g'.rules) :
    (∃ n, Settles g n e c o) ↔ ∃ n, Settles g' n e c o := by
  constructor
  · rintro ⟨n, hsettles⟩
    exact ⟨n, h.passes n e c o hsettles⟩
  · rintro ⟨n, hsettles⟩
    obtain ⟨k, hback⟩ := h.exists_passes_back
    exact ⟨_, hback n e c o hsettles⟩

/-- Attempts of a rule come to the same in both grammars: both match up to the same cursor, both get
stuck at the same offset, or neither ever returns. -/
def AttemptsAlike (g g' : Grammar) (id : RuleId) (text : String) (i : Nat) (mode : MatchMode) :
    Prop :=
  (∃ node node' stop, g.attempt id text i mode = .ok (.matched node stop) ∧
    g'.attempt id text i mode = .ok (.matched node' stop)) ∨
  (∃ offset, g.attempt id text i mode = .ok (.failed offset) ∧
    g'.attempt id text i mode = .ok (.failed offset)) ∨
  ∃ c, Cursor.at? text.toList i = some c ∧ Diverges g id c ∧ Diverges g' id c

/-- In particular the answers are the same, apart from the nodes. -/
theorem AttemptsAlike.map_forget_eq {text : String}
    (hlen : Text.byteLength text.toList ≤ maxInputLength) {i : Nat} {mode : MatchMode}
    (h : AttemptsAlike g g' id text i mode) :
    (g'.attempt id text i mode).map Outcome.forget
      = (g.attempt id text i mode).map Outcome.forget := by
  rcases h with ⟨node, node', stop, hg, hg'⟩ | ⟨offset, hg, hg'⟩ | ⟨c, hc, hdiv, hdiv'⟩
  · rw [hg, hg']
    rfl
  · rw [hg, hg']
  · rw [attempt_eq_error hlen hc hdiv, attempt_eq_error hlen hc hdiv']

/-- The same rules are declared. -/
theorem RewritesTo.declares_iff (h : g.RewritesTo g'.rules) : g'.Declares id ↔ g.Declares id := by
  rw [Declares, Declares, h.size_eq]

/-- Attempts in both grammars come to the same, since an attempt returns if and only if there is a
course for it. -/
theorem RewritesTo.attemptsAlike (h : g.RewritesTo g'.rules) (hid : g.Declares id) {text : String}
    (hlen : Text.byteLength text.toList ≤ maxInputLength) {i : Nat}
    (hi : Text.isBoundary text.toList i = true) (mode : MatchMode) :
    AttemptsAlike g g' id text i mode := by
  have hid' : g'.Declares id := h.declares_iff.mpr hid
  obtain ⟨c, hc⟩ := Cursor.exists_at?_of_isBoundary hi
  rcases attempt_cases hlen hc hid mode with ⟨n, steps, o, hrun, hattempt⟩ | ⟨hdiv, -⟩
  · obtain ⟨n', steps', o', hrun', hforget⟩ :=
      h.exists_settles_iff.mp ⟨n, steps, o, hrun, rfl⟩
    have hattempt' := attempt_eq_ok hlen hc hrun' mode
    cases o with
    | matched node stop =>
      obtain ⟨node', rfl⟩ := Outcome.forget_eq_matched_iff.mp hforget
      exact Or.inl ⟨node, node', stop, hattempt, hattempt'⟩
    | failed offset =>
      obtain rfl := Outcome.forget_eq_failed_iff.mp hforget
      exact Or.inr (Or.inl ⟨offset, hattempt, hattempt'⟩)
  · refine Or.inr (Or.inr ⟨c, hc, hdiv, (diverges_iff hid').mpr fun n steps o hrun => ?_⟩)
    obtain ⟨n', steps', o', hrun', -⟩ := h.exists_settles_iff.mpr ⟨n, steps, o, hrun, rfl⟩
    exact (diverges_iff hid).mp hdiv n' steps' o' hrun'

/-- What one grammar refuses to attempt, the other refuses for the same reason. -/
theorem RewritesTo.exists_fault (h : g.RewritesTo g'.rules) {text : String} {i : Nat}
    (hrefused : ¬ (g.Declares id ∧ Text.byteLength text.toList ≤ maxInputLength ∧
      Text.isBoundary text.toList i = true)) (mode : MatchMode) :
    ∃ fault, g.attempt id text i mode = .error fault ∧
      g'.attempt id text i mode = .error fault := by
  rcases Nat.lt_or_ge maxInputLength (Text.byteLength text.toList) with hlong | hlen
  · exact ⟨_, attempt_of_long hlong mode, attempt_of_long hlong mode⟩
  cases hc : Cursor.at? text.toList i with
  | none => exact ⟨_, attempt_of_not_position hlen hc mode, attempt_of_not_position hlen hc mode⟩
  | some c =>
    obtain ⟨hreach, rfl⟩ := Cursor.at?_eq_some_iff.mp hc
    have hid : ¬ g.Declares id :=
      fun hid => hrefused ⟨hid, hlen, Cursor.isBoundary_offset hreach⟩
    exact ⟨_, attempt_of_not_declares hlen hc hid mode,
      attempt_of_not_declares hlen hc (mt h.declares_iff.mp hid) mode⟩

end Grammar

/-- **Rewriting keeps matching.** Let rules be obtained from those of a grammar by rewriting any
number of parts of their alternatives. They are the rules of a grammar with the same start, and
every attempt of a declared rule, at any position of any text and in either mode, comes to the same
in both grammars. An attempt that one of them refuses, because the text is too long, the offset is
no position of it or the rule is not declared, the other refuses for the same reason. -/
theorem rewriting_keeps_matching {g : Grammar} {rules : Array Rule} (h : g.RewritesTo rules) :
    ∃ g' : Grammar, g'.rules = rules ∧ g'.start = g.start ∧
      ∀ (id : RuleId) (text : String) (i : Nat) (mode : MatchMode),
        (g.Declares id → Text.byteLength text.toList ≤ maxInputLength →
          Text.isBoundary text.toList i = true → Grammar.AttemptsAlike g g' id text i mode) ∧
        (¬ (g.Declares id ∧ Text.byteLength text.toList ≤ maxInputLength ∧
            Text.isBoundary text.toList i = true) →
          ∃ fault, g.attempt id text i mode = .error fault ∧
            g'.attempt id text i mode = .error fault) := by
  refine ⟨⟨rules, g.start, h.violation?_eq_none⟩, rfl, rfl, fun id text i mode => ?_⟩
  have hrules : g.RewritesTo (⟨rules, g.start, h.violation?_eq_none⟩ : Grammar).rules := h
  exact ⟨fun hid hlen hi => hrules.attemptsAlike hid hlen hi mode,
    fun hrefused => hrules.exists_fault hrefused mode⟩

/-- Brackets within brackets, with letters in the innermost ones. -/
def bracketsRule : Rule where
  name := "brackets"
  alternatives := [
    .sequence [.literal "(", .sequence [.rule ⟨0⟩, .literal ")"]],
    .repeated (.repeated (.literal "x") .oneToMany) .oneToMany]
  alternatives_ne_nil := nofun

/-- The grammar of the one rule. -/
def brackets : Grammar where
  rules := #[bracketsRule]
  start := ⟨0⟩
  valid := rfl

/-- The rule with its inner sequence put into the outer one, its reference to itself unrolled, and
the two repetitions merged. -/
def unrolledBrackets : Array Rule := #[⟨"brackets", [
  .sequence [.literal "(", .choice bracketsRule.alternatives, .literal ")"],
  .repeated (.literal "x") .oneToMany], nofun⟩]

theorem brackets_rewritesTo : brackets.RewritesTo unrolledBrackets := by
  refine .cons ⟨rfl, .cons ?_ (.cons ?_ .nil)⟩ .nil
  · refine .tail (.single (.splice_sequence [.literal "("] [.rule ⟨0⟩, .literal ")"] [])) ?_
    exact .in_sequence [.literal "("] [.literal ")"] (.inline (r := bracketsRule) rfl)
  · exact .single (.merge_repeated (.literal "x") .oneToMany .oneToMany)

/-- The unrolled rule matches two pairs of brackets, and gets stuck where a bracket is missing. -/
theorem unrolledBrackets_match :
    brackets.RewritesTo unrolledBrackets ∧
    ∃ g' : Grammar, g'.rules = unrolledBrackets ∧
      (g'.attempt ⟨0⟩ "((xx))" 0 .lexical).map Outcome.forget = .ok (.matched () ⟨6, []⟩) ∧
      (g'.attempt ⟨0⟩ "é((x)" 2 .syntactic).map Outcome.forget = .ok (.failed 6) := by
  obtain ⟨g', hrules, -, halike⟩ := rewriting_keeps_matching brackets_rewritesTo
  have hclosed := (halike ⟨0⟩ "((xx))" 0 .lexical).1 (by decide) (by decide) (by decide)
  have hopen := (halike ⟨0⟩ "é((x)" 2 .syntactic).1 (by decide) (by decide) (by decide)
  refine ⟨brackets_rewritesTo, g', hrules, ?_, ?_⟩
  · rw [hclosed.map_forget_eq (by decide)]
    decide +kernel
  · rw [hopen.map_forget_eq (by decide)]
    decide +kernel

end PegGrammar
