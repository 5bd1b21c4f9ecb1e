import Mathlib.Data.List.Basic
import PegGrammar.Grammar.Basic

/-!
# Grammars are closed

The proof field of `Grammar` says that looking for a violation finds none. What matching needs of
it is only that every reference, at any depth of any alternative of any rule, stands for a rule.

`Grammar.Declares` is that condition on an identifier. A statement about the rules of a grammar
asks it of the identifier it starts from, and the lemmas here supply it for all others.
-/

namespace PegGrammar

theorem mem_refsAll_iff {s : RuleId} {es : List Expr} :
    s ∈ Expr.refsAll es ↔ ∃ e ∈ es, s ∈ e.refs := by
  induction es with
  | nil => simp [Expr.refsAll]
  | cons e es ih => simp [Expr.refsAll, ih]

mutual

/-- An expression in which nothing is wrong refers to rules of the table only. The induction is
along the check, which comes upon the references in the order in which `refs` lists them. -/
theorem Expr.index_lt_of_violation? {size : Nat} {owner : String} :
    ∀ {e : Expr}, e.violation? size owner = none → ∀ id ∈ e.refs, id.index < size
  | .terminal _, _ => by simp [Expr.refs]
  | .rule id, h => by
    rw [Expr.violation?] at h
    split at h
    · simpa [Expr.refs]
    · cases h
  | .repeated e _, h => by
    rw [Expr.violation?] at h
    exact Expr.index_lt_of_violation? (e := e) h
  | .sequence [], _ | .choice [], _ => by simp [Expr.refs, Expr.refsAll]
  | .sequence (e :: es), h | .choice (e :: es), h => by
    rw [Expr.violation?, Option.or_eq_none_iff] at h
    intro id hid
    rcases List.mem_append.mp hid with hid | hid
    · exact Expr.index_lt_of_violation? h.1 id hid
    · exact Expr.index_lt_of_violationAny? h.2 id hid

theorem Expr.index_lt_of_violationAny? {size : Nat} {owner : String} :
    ∀ {es : List Expr}, Expr.violationAny? size owner es = none →
      ∀ id ∈ Expr.refsAll es, id.index < size
  | [], _ => by simp [Expr.refsAll]
  | e :: es, h => by
    rw [Expr.violationAny?, Option.or_eq_none_iff] at h
    intro id hid
    rcases List.mem_append.mp hid with hid | hid
    · exact Expr.index_lt_of_violation? h.1 id hid
    · exact Expr.index_lt_of_violationAny? h.2 id hid

end

namespace Grammar

variable {g : Grammar} {id : RuleId} {r : Rule}

/-- The grammar has a rule of that number. -/
def Declares (g : Grammar) (id : RuleId) : Prop := id.index < g.rules.size

instance : Decidable (g.Declares id) := inferInstanceAs (Decidable (id.index < g.rules.size))

/-- A rule is declared if its number is that of a rule. Most proofs need the rule, and not the
number. -/
theorem declares_iff_exists_rule? : g.Declares id ↔ ∃ r, g.rule? id = some r := by
  rw [rule?, ← Option.isSome_iff_exists]
  simp [Declares]

theorem declares_of_rule? (h : g.rule? id = some r) : g.Declares id :=
  declares_iff_exists_rule?.mpr ⟨r, h⟩

theorem rule_eq_ok (h : g.rule? id = some r) : g.rule id = .ok r := by
  rw [rule, h]

theorem declares_start (g : Grammar) : g.Declares g.start := by
  have h := g.valid
  rw [violation?] at h
  split at h
  · assumption
  · cases h

/-- **A grammar is closed.** Whatever a rule refers to is declared. -/
theorem declares_of_mem_refsAll (hr : g.rule? id = some r) :
    ∀ s ∈ Expr.refsAll r.alternatives, g.Declares s := by
  have h := g.valid
  have hstart : g.start.index < g.rules.size := declares_start g
  rw [violation?, if_pos hstart, List.findSome?_eq_none_iff] at h
  have hmem : r ∈ g.rules.toList := Array.mem_toList_iff.mpr (Array.mem_of_getElem? hr)
  exact Expr.index_lt_of_violationAny? (h r hmem)

end Grammar

end PegGrammar
