import Mathlib.Data.List.Nodup
import Mathlib.Data.List.Perm.Subperm
import Mathlib.Logic.Relation
import PegGrammar.Expr.Combinators
import PegGrammar.Proofs.Discovery
import PegGrammar.Proofs.Subexpressions

/-!
# Discovery is a depth-first search

A discovery lists the rules that can be reached from the start rule, each of them once, and it
lists them depth first. Rules may refer to each other in circles, so nothing here is an induction
on paths: every statement about the list is one about the walk that makes it.

## What makes an order depth first

Suppose that `a` is listed first, then `b`, and then `c`. If `a` leads to `c` then the walk was
going to look at `c` when it left `a`, so whatever it lists before `c` it lists on its way there.
A rule `b` to which `a` does not lead itself must then come from a rule that was listed in between.
The law tells this order from others: a walk that goes through the rules level by level would list
the other rules on the level of `a` between `a` and `c`, whether or not anything there leads to
them.

The law needs one fact about the rules that wait to be looked at, and it is a fact about a part at
the front of them (`exists_parent_of_sublist`): what comes before a rule from the front part, and
is not itself in it, has been put in front of it by a listed rule.

## Main definitions

* `Grammar.LeadsTo` — the step of a discovery from rule to rule

## Main results

* `nodup_visit` — a walk lists no rule twice
* `exists_reaches_of_mem_visit`, `mem_visit_of_reaches` — a walk lists what can be reached
* `exists_between_of_sublist` — the law of depth-first orders
* `discover_is_depth_first` — what a discovery lists, and in which order
-/

namespace PegGrammar

open Relation

/-! ### The walk -/

section Visit

variable {next : RuleId → List RuleId} {pending unlisted : List RuleId} {a b c id s : RuleId}

theorem nodup_visit (hu : unlisted.Nodup) : (visit next pending unlisted).Nodup := by
  fun_induction visit next pending unlisted with
  | case1 => exact List.nodup_nil
  | case2 unlisted first pending hfirst ih =>
    refine List.nodup_cons.mpr ⟨fun hmem => ?_, ih (hu.erase first)⟩
    exact hu.not_mem_erase (mem_unlisted_of_mem_visit hmem)
  | case3 unlisted first pending hfirst ih => exact ih hu

/-- Whatever a walk lists can be reached from one of the rules with which it starts. -/
theorem exists_reaches_of_mem_visit (h : id ∈ visit next pending unlisted) :
    ∃ p ∈ pending, ReflTransGen (fun r s => s ∈ next r) p id := by
  fun_induction visit next pending unlisted with
  | case1 => exact absurd h List.not_mem_nil
  | case2 unlisted first pending hfirst ih =>
    rcases List.mem_cons.mp h with rfl | h
    · exact ⟨id, List.mem_cons_self, .refl⟩
    · obtain ⟨p, hp, hreaches⟩ := ih h
      rcases List.mem_append.mp hp with hp | hp
      · exact ⟨first, List.mem_cons_self, hreaches.head hp⟩
      · exact ⟨p, List.mem_cons_of_mem _ hp, hreaches⟩
  | case3 unlisted first pending hfirst ih =>
    obtain ⟨p, hp, hreaches⟩ := ih h
    exact ⟨p, List.mem_cons_of_mem _ hp, hreaches⟩

/-- Whatever can be reached from a listed rule is listed, if references stay among the rules that
there are. -/
theorem mem_visit_of_reaches (hclosed : ∀ r s, s ∈ next r → s ∈ unlisted)
    (h : id ∈ visit next pending unlisted) (hs : ReflTransGen (fun r s => s ∈ next r) id s) :
    s ∈ visit next pending unlisted := by
  induction hs with
  | refl => exact h
  | tail _ hstep ih => exact mem_visit_of_mem_next ih hstep (hclosed _ _ hstep)

/-- If a rule in the front part of the pending ones is listed after `b`, which is not in the front
part, then a rule that is listed before `b` refers to `b`. -/
theorem exists_parent_of_sublist {front back : List RuleId} (hu : unlisted.Nodup)
    (hc : c ∈ front) (hb : b ∉ front)
    (h : [b, c].Sublist (visit next (front ++ back) unlisted)) :
    ∃ d, [d, b].Sublist (visit next (front ++ back) unlisted) ∧ b ∈ next d := by
  generalize hpending : front ++ back = pending at h ⊢
  fun_induction visit next pending unlisted generalizing front back with
  | case1 =>
    rw [(List.append_eq_nil_iff.mp hpending).1] at hc
    exact absurd hc List.not_mem_nil
  | case2 unlisted first pending hfirst ih =>
    rcases front with _ | ⟨x, front⟩
    · exact absurd hc List.not_mem_nil
    rw [List.cons_append, List.cons.injEq] at hpending
    obtain ⟨rfl, hrest⟩ := hpending
    have hbfirst : b ≠ x := fun heq => hb (heq ▸ List.mem_cons_self)
    have htail : [b, c].Sublist (visit next (next x ++ pending) (unlisted.erase x)) := by
      cases h with
      | cons _ h => exact h
      | cons_cons _ h => exact absurd rfl hbfirst
    have hcfirst : c ≠ x := by
      intro heq
      have hmem := mem_unlisted_of_mem_visit (htail.subset (by simp : c ∈ [b, c]))
      exact hu.not_mem_erase (heq ▸ hmem)
    by_cases hnext : b ∈ next x
    -- The rule that was just listed refers to `b` itself.
    · exact ⟨x, (List.singleton_sublist.mpr (htail.subset (by simp))).cons_cons x, hnext⟩
    -- Otherwise its references join the front part, and `b` is still not in it.
    · have hfront : b ∉ next x ++ front := by
        simp only [List.mem_append, hnext, false_or]
        exact fun hmem => hb (List.mem_cons_of_mem _ hmem)
      obtain ⟨d, hd, hdb⟩ := @ih (next x ++ front) back (hu.erase x)
        (List.mem_append_right _ ((List.mem_cons.mp hc).resolve_left hcfirst)) hfront
        (by rw [List.append_assoc, hrest]) htail
      exact ⟨d, hd.cons x, hdb⟩
  | case3 unlisted first pending hfirst ih =>
    rcases front with _ | ⟨x, front⟩
    · exact absurd hc List.not_mem_nil
    rw [List.cons_append, List.cons.injEq] at hpending
    obtain ⟨rfl, hrest⟩ := hpending
    have hcfirst : c ≠ x := by
      intro heq
      exact hfirst (heq ▸ mem_unlisted_of_mem_visit (h.subset (by simp : c ∈ [b, c])))
    exact ih hu ((List.mem_cons.mp hc).resolve_left hcfirst)
      (fun hmem => hb (List.mem_cons_of_mem _ hmem)) hrest h

/-- **The law of depth-first orders.** If `a`, `b`, `c` are listed in this order and `a` refers to
`c` but not to `b`, then a rule that is listed between `a` and `b` refers to `b`. -/
theorem exists_between_of_sublist (hu : unlisted.Nodup)
    (h : [a, b, c].Sublist (visit next pending unlisted)) (hac : c ∈ next a) (hab : b ∉ next a) :
    ∃ d, [a, d, b].Sublist (visit next pending unlisted) ∧ b ∈ next d := by
  fun_induction visit next pending unlisted with
  | case1 => cases h
  | case2 unlisted first pending hfirst ih =>
    cases h with
    | cons _ h =>
      obtain ⟨d, hd, hdb⟩ := ih (hu.erase first) h
      exact ⟨d, hd.cons first, hdb⟩
    | cons_cons _ h =>
      obtain ⟨d, hd, hdb⟩ := exists_parent_of_sublist (hu.erase a) hac hab h
      exact ⟨d, hd.cons_cons a, hdb⟩
  | case3 unlisted first pending hfirst ih => exact ih hu h

end Visit

/-! ### From rule to rule -/

theorem Expr.mem_refs_iff {s : RuleId} {e : Expr} : s ∈ e.refs ↔ .rule s ∈ e.preorder := by
  induction e using Expr.elementInduction with
  | terminal t => simp [refs, preorder]
  | rule id => simp [refs, preorder]
  | repeated e bounds ih => simp [refs, preorder, ih]
  | sequence es ih =>
    simp only [refs, preorder, preorderAll_eq_flatMap, mem_refsAll_iff, List.mem_cons,
      List.mem_flatMap, reduceCtorEq, false_or]
    exact exists_congr fun e => and_congr_right fun he => ih e he
  | choice es ih =>
    simp only [refs, preorder, preorderAll_eq_flatMap, mem_refsAll_iff, List.mem_cons,
      List.mem_flatMap, reduceCtorEq, false_or]
    exact exists_congr fun e => and_congr_right fun he => ih e he

namespace Grammar

variable {g : Grammar} {discovery : Discovery} {id r s : RuleId}

/-- A discovery goes from the rule `r` to the rule `s`: an alternative of `r` is a reference to `s`
as a whole or, if the discovery is deep, has such a reference at any place in it. -/
def LeadsTo (g : Grammar) (discovery : Discovery) (r s : RuleId) : Prop :=
  ∃ rule, g.rule? r = some rule ∧ ∃ e ∈ rule.alternatives,
    match discovery with
    | .directAlternatives => e = .rule s
    | .deep => .rule s ∈ e.preorder

theorem asRule?_eq_some_iff {e : Expr} : e.asRule? = some s ↔ e = .rule s := by
  cases e <;> simp [Expr.asRule?]

theorem mem_references_iff : s ∈ g.references discovery r ↔ g.LeadsTo discovery r s := by
  cases hr : g.rule? r with
  | none => simp [references, LeadsTo, hr]
  | some rule =>
    cases discovery with
    | directAlternatives =>
      simp [references, LeadsTo, hr, List.mem_filterMap, asRule?_eq_some_iff]
    | deep => simp [references, LeadsTo, hr, List.mem_flatMap, Expr.mem_refs_iff]

instance : Decidable (g.LeadsTo discovery r s) := decidable_of_iff _ mem_references_iff

/-- What a discovery follows as a whole, a deep one follows too. -/
theorem LeadsTo.deep (h : g.LeadsTo discovery r s) : g.LeadsTo .deep r s := by
  cases discovery with
  | directAlternatives =>
    obtain ⟨rule, hr, e, he, rfl⟩ := h
    exact ⟨rule, hr, .rule s, he, Expr.self_mem_preorder _⟩
  | deep => exact h

theorem LeadsTo.declares (h : g.LeadsTo discovery r s) : g.Declares s := by
  obtain ⟨rule, hr, e, he, hs⟩ := h.deep
  exact declares_of_mem_refsAll hr s (mem_refsAll_iff.mpr ⟨e, he, Expr.mem_refs_iff.mpr hs⟩)

theorem mem_discover_iff :
    s ∈ g.discover discovery ↔ ReflTransGen (g.LeadsTo discovery) g.start s := by
  have hstep : (fun r s => s ∈ g.references discovery r) = g.LeadsTo discovery :=
    funext fun r => funext fun s => propext mem_references_iff
  constructor
  · intro h
    obtain ⟨p, hp, hreaches⟩ := exists_reaches_of_mem_visit h
    rw [List.mem_singleton.mp hp, hstep] at hreaches
    exact hreaches
  · intro h
    rw [← hstep] at h
    refine mem_visit_of_reaches (fun r s hs => ?_) (start_mem_discover g discovery) h
    exact mem_ids_iff.mpr (mem_references_iff.mp hs).declares

theorem head?_discover (g : Grammar) (discovery : Discovery) :
    (g.discover discovery).head? = some g.start := by
  rw [discover, visit, if_pos (mem_ids_iff.mpr (declares_start g)), List.head?_cons]

/-- There is an end to a discovery: it cannot list more rules than the grammar has. -/
theorem length_discover_le (g : Grammar) (discovery : Discovery) :
    (g.discover discovery).length ≤ g.rules.size := by
  have hsub : g.discover discovery ⊆ g.ids := fun s hs =>
    mem_ids_iff.mpr (declares_of_mem_discover hs)
  calc (g.discover discovery).length
      ≤ g.ids.length := (List.subperm_of_subset (nodup_visit g.nodup_ids) hsub).length_le
    _ = g.rules.size := by simp [ids]

end Grammar

/-- **A discovery lists the rules that can be reached, each of them once, depth first.** The start
rule comes first, and the list obeys the law of depth-first orders. Whatever is discovered through
alternatives that are references is also discovered through references at any place. -/
theorem discover_is_depth_first (g : Grammar) (discovery : Discovery) :
    (g.discover discovery).length ≤ g.rules.size ∧
    (g.discover discovery).Nodup ∧
    (g.discover discovery).head? = some g.start ∧
    (∀ s, s ∈ g.discover discovery ↔ ReflTransGen (g.LeadsTo discovery) g.start s) ∧
    (∀ a b c, [a, b, c].Sublist (g.discover discovery) →
      g.LeadsTo discovery a c → ¬ g.LeadsTo discovery a b →
      ∃ d, [a, d, b].Sublist (g.discover discovery) ∧ g.LeadsTo discovery d b) ∧
    g.discover .directAlternatives ⊆ g.discover .deep := by
  refine ⟨g.length_discover_le discovery, nodup_visit g.nodup_ids, g.head?_discover discovery,
    fun s => Grammar.mem_discover_iff, ?_, ?_⟩
  · intro a b c h hac hab
    rw [← Grammar.mem_references_iff] at hac hab
    obtain ⟨d, hd, hdb⟩ := exists_between_of_sublist g.nodup_ids h hac hab
    exact ⟨d, hd, Grammar.mem_references_iff.mp hdb⟩
  · intro s hs
    exact Grammar.mem_discover_iff.mpr
      ((Grammar.mem_discover_iff.mp hs).lift id fun _ _ h => h.deep)

/-- Rules in two circles. The last rule is referred to from inside a sequence only. -/
def circles : Grammar where
  rules := #[
    ⟨"town", [.rule ⟨1⟩, .rule ⟨2⟩], by simp⟩,
    ⟨"ring", [.rule ⟨3⟩, .rule ⟨0⟩], by simp⟩,
    ⟨"road", [.sequence [.literal "x", .rule ⟨4⟩]], by simp⟩,
    ⟨"gate", [.rule ⟨1⟩], by simp⟩,
    ⟨"park", [.rule ⟨0⟩], by simp⟩]
  start := ⟨0⟩
  valid := rfl

/-- The gate is listed between the town and the road, and the town does not lead to it: it is on
the ring, which does. -/
theorem circles_between :
    circles.discover .deep = [⟨0⟩, ⟨1⟩, ⟨3⟩, ⟨2⟩, ⟨4⟩] ∧
    circles.discover .directAlternatives = [⟨0⟩, ⟨1⟩, ⟨3⟩, ⟨2⟩] ∧
    circles.LeadsTo .deep ⟨0⟩ ⟨2⟩ ∧ ¬ circles.LeadsTo .deep ⟨0⟩ ⟨3⟩ ∧
    ∃ d, [⟨0⟩, d, ⟨3⟩].Sublist (circles.discover .deep) ∧ circles.LeadsTo .deep d ⟨3⟩ := by
  have hdeep : circles.discover .deep = [⟨0⟩, ⟨1⟩, ⟨3⟩, ⟨2⟩, ⟨4⟩] := by cbv
  have hdirect : circles.discover .directAlternatives = [⟨0⟩, ⟨1⟩, ⟨3⟩, ⟨2⟩] := by cbv
  obtain ⟨-, -, -, -, hbetween, -⟩ := discover_is_depth_first circles .deep
  exact ⟨hdeep, hdirect, by decide, by decide,
    hbetween ⟨0⟩ ⟨3⟩ ⟨2⟩ (by rw [hdeep]; decide) (by decide) (by decide)⟩

end PegGrammar
