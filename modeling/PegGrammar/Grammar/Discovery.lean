import PegGrammar.Grammar.Basic

/-!
# Discovering rules

The rules reachable from the start rule, listed depth first, each where it is first reached. One
can follow only the alternatives that are rule references as a whole, or every reference.

## Implementation notes

The walk keeps the rules still to look at, in the order in which a recursive walk would come to
them, and the rules not yet listed. A rule that is looked at and already listed is skipped, so the
walk ends on cyclic grammars too: each step lists a rule or drops a pending one.
-/

namespace PegGrammar

/-- Which references a discovery follows. -/
inductive Discovery where
  /-- Alternatives that are themselves rule references. -/
  | directAlternatives
  /-- References at any depth. -/
  | deep
  deriving DecidableEq, Repr

/-- Depth-first order of what is reachable from the `pending` rules among the `unlisted` ones,
where `next` gives the references of a rule. -/
def visit (next : RuleId → List RuleId) (pending unlisted : List RuleId) : List RuleId :=
  match pending with
  | [] => []
  | id :: pending =>
    if id ∈ unlisted then id :: visit next (next id ++ pending) (unlisted.erase id)
    else visit next pending unlisted
termination_by (unlisted.length, pending.length)
decreasing_by
  · rename_i h
    refine Prod.Lex.left _ _ ?_
    have hpos := List.length_pos_of_mem h
    rw [List.length_erase_of_mem h]
    exact Nat.sub_lt hpos Nat.one_pos
  · exact Prod.Lex.right _ (Nat.lt_succ_self _)

namespace Grammar

/-- The references of a rule that a discovery follows, from left to right. -/
def references (g : Grammar) (discovery : Discovery) (id : RuleId) : List RuleId :=
  match g.rule? id, discovery with
  | none, _ => []
  | some r, .directAlternatives => r.alternatives.filterMap Expr.asRule?
  | some r, .deep => r.alternatives.flatMap Expr.refs

/-- The rules reachable from the start rule, depth first, each listed once. -/
def discover (g : Grammar) (discovery : Discovery) : List RuleId :=
  visit (g.references discovery) [g.start] g.ids

end Grammar

end PegGrammar
