import Mathlib.Data.List.Nodup
import PegGrammar.Grammar.Discovery
import PegGrammar.Proofs.Closed

/-!
# What discovery lists

A discovery walks along the references of rules and lists each rule where it first comes to it.
The list is closed: whatever a listed rule refers to is listed too. That makes it the part of a
grammar on which everything that starts from the start rule depends.

## The rules not yet listed

The walk carries along the rules that are not yet listed, and begins with all rules of the grammar.
Two grammars of different sizes begin with different lists, so whether they discover the same rules
cannot be read off the definition. It follows from `visit_congr`: only the rules in a closed
collection are ever looked up in that list.

## Main results

* `mem_visit_of_mem_next` — a walk lists what a listed rule refers to
* `visit_congr` — a walk depends on a closed collection of rules only
* `Grammar.mem_discover_of_mem_refsAll` — a deep discovery is closed
* `Grammar.discover_eq_of_agree` — grammars that agree on what one of them discovers
-/

namespace PegGrammar

/-! ### The walk -/

section Visit

variable {next next' : RuleId → List RuleId} {pending unlisted unlisted' : List RuleId}
  {id s : RuleId}

theorem mem_unlisted_of_mem_visit (h : id ∈ visit next pending unlisted) : id ∈ unlisted := by
  fun_induction visit next pending unlisted with
  | case1 => exact absurd h List.not_mem_nil
  | case2 unlisted first pending hfirst ih =>
    rcases List.mem_cons.mp h with rfl | h
    · exact hfirst
    · exact List.mem_of_mem_erase (ih h)
  | case3 unlisted first pending hfirst ih => exact ih h

/-- Every rule that is waiting to be looked at is listed, unless it was listed before. -/
theorem mem_visit_of_mem_pending (hp : id ∈ pending) (hu : id ∈ unlisted) :
    id ∈ visit next pending unlisted := by
  fun_induction visit next pending unlisted with
  | case1 => exact absurd hp List.not_mem_nil
  | case2 unlisted first pending hfirst ih =>
    by_cases hid : id = first
    · exact List.mem_cons.mpr (Or.inl hid)
    · have hpending : id ∈ pending := (List.mem_cons.mp hp).resolve_left hid
      exact List.mem_cons_of_mem _
        (ih (List.mem_append_right _ hpending) ((List.mem_erase_of_ne hid).mpr hu))
  | case3 unlisted first pending hfirst ih =>
    have hid : id ≠ first := fun h => hfirst (h ▸ hu)
    exact ih ((List.mem_cons.mp hp).resolve_left hid) hu

/-- **A walk lists what a listed rule refers to**, unless it was listed before. -/
theorem mem_visit_of_mem_next (h : id ∈ visit next pending unlisted) (hs : s ∈ next id)
    (hu : s ∈ unlisted) : s ∈ visit next pending unlisted := by
  fun_induction visit next pending unlisted with
  | case1 => exact absurd h List.not_mem_nil
  | case2 unlisted first pending hfirst ih =>
    by_cases hsfirst : s = first
    · exact List.mem_cons.mpr (Or.inl hsfirst)
    · have hrest : s ∈ unlisted.erase first := (List.mem_erase_of_ne hsfirst).mpr hu
      refine List.mem_cons_of_mem _ ?_
      rcases List.mem_cons.mp h with rfl | h
      · exact mem_visit_of_mem_pending (List.mem_append_left _ hs) hrest
      · exact ih h hrest
  | case3 unlisted first pending hfirst ih => exact ih h hu

/-- **A walk depends on a closed collection of rules only.** If the rules it starts with are in the
collection, two reference functions that agree there lead to the same list, whatever other rules
there are to be listed. -/
theorem visit_congr {ids : List RuleId} (hnext : ∀ id ∈ ids, next' id = next id)
    (hclosed : ∀ id ∈ ids, next id ⊆ ids) (hpending : pending ⊆ ids)
    (hunlisted : ∀ id ∈ ids, id ∈ unlisted' ↔ id ∈ unlisted) (hnodup : unlisted.Nodup)
    (hnodup' : unlisted'.Nodup) : visit next' pending unlisted' = visit next pending unlisted := by
  fun_induction visit next pending unlisted generalizing unlisted' with
  | case1 => rw [visit]
  | case2 unlisted first pending hfirst ih =>
    obtain ⟨hids, hrest⟩ := List.cons_subset.mp hpending
    rw [visit, if_pos ((hunlisted first hids).mpr hfirst), hnext first hids]
    congr 1
    refine ih (List.append_subset.mpr ⟨hclosed first hids, hrest⟩) (fun id hid => ?_)
      (hnodup.erase first) (hnodup'.erase first)
    rw [hnodup.mem_erase_iff, hnodup'.mem_erase_iff, hunlisted id hid]
  | case3 unlisted first pending hfirst ih =>
    obtain ⟨hids, hrest⟩ := List.cons_subset.mp hpending
    rw [visit, if_neg (mt (hunlisted first hids).mp hfirst)]
    exact ih hrest hunlisted hnodup hnodup'

end Visit

/-! ### Discovered rules -/

namespace Grammar

variable {g g' : Grammar} {discovery : Discovery} {id s : RuleId} {r : Rule}

theorem mem_ids_iff : id ∈ g.ids ↔ g.Declares id := by
  obtain ⟨index⟩ := id
  simp [ids, Declares]

theorem nodup_ids (g : Grammar) : g.ids.Nodup :=
  List.nodup_range.map fun _ _ h => congrArg RuleId.index h

theorem declares_of_mem_discover (h : id ∈ g.discover discovery) : g.Declares id :=
  mem_ids_iff.mp (mem_unlisted_of_mem_visit h)

theorem start_mem_discover (g : Grammar) (discovery : Discovery) :
    g.start ∈ g.discover discovery :=
  mem_visit_of_mem_pending (List.mem_singleton.mpr rfl) (mem_ids_iff.mpr (declares_start g))

theorem mem_references_deep_iff (hr : g.rule? id = some r) :
    s ∈ g.references .deep id ↔ s ∈ Expr.refsAll r.alternatives := by
  simp only [references, hr, mem_refsAll_iff, List.mem_flatMap]

/-- **A deep discovery is closed.** Whatever a discovered rule refers to is discovered. -/
theorem mem_discover_of_mem_refsAll (h : id ∈ g.discover .deep) (hr : g.rule? id = some r)
    (hs : s ∈ Expr.refsAll r.alternatives) : s ∈ g.discover .deep :=
  mem_visit_of_mem_next h ((mem_references_deep_iff hr).mpr hs)
    (mem_ids_iff.mpr (declares_of_mem_refsAll hr s hs))

/-- **Grammars that agree on what one of them discovers** discover the same. -/
theorem discover_eq_of_agree (hstart : g'.start = g.start)
    (hagree : ∀ s ∈ g.discover .deep, g'.rule? s = g.rule? s) :
    g'.discover .deep = g.discover .deep := by
  have hdeclares : ∀ s ∈ g.discover .deep, g'.Declares s := by
    intro s hs
    obtain ⟨r, hr⟩ := declares_iff_exists_rule?.mp (declares_of_mem_discover hs)
    exact declares_of_rule? ((hagree s hs).trans hr)
  have hreferences : ∀ s ∈ g.discover .deep, g'.references .deep s = g.references .deep s := by
    intro s hs
    simp only [references, hagree s hs]
  have hclosed : ∀ s ∈ g.discover .deep, g.references .deep s ⊆ g.discover .deep := by
    intro s hs t ht
    obtain ⟨r, hr⟩ := declares_iff_exists_rule?.mp (declares_of_mem_discover hs)
    exact mem_discover_of_mem_refsAll hs hr ((mem_references_deep_iff hr).mp ht)
  conv_lhs => rw [discover, hstart]
  refine visit_congr hreferences hclosed
    (List.cons_subset.mpr ⟨start_mem_discover g .deep, List.nil_subset _⟩) (fun s hs => ?_)
    g.nodup_ids g'.nodup_ids
  rw [mem_ids_iff, mem_ids_iff]
  exact iff_of_true (hdeclares s hs) (declares_of_mem_discover hs)

end Grammar

end PegGrammar
